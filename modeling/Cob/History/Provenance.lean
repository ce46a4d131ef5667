import Cob.History.World

/-!
# Where caches come from

Whatever happens in a history, a cache holds what some text said when it was parsed, with the
overrides of the runs that rewrote the cache since. That is so of the definitions and of all that
the columns of the manifest say (`shows`); of the paths it is so as long as no cache is written
while a mapped dependency file shows something else than was parsed (`describes`). What an origin
can be is then a matter of the moves of the history: `origins_via` is the invariant rule for
origins.

The module introduces:

* `Describes` — a builder holds what its origin says, command hashes aside;
* `Shows` — it does so but for the bytes of some paths;
* `Traced` — all caches and builders of a world are as their origins say;
* `EmitsIntact` — the histories in which the mapped files are intact when a cache is written;
* `Phase.origin` — the origin of the builder of the run in progress.
-/

namespace Cob

/-- The builder holds what the origin says, command hashes aside. -/
def Describes (origin : Origin) (b : COBBuilder) : Prop :=
  ∃ b₀, parseText origin.disk.content origin.text .empty = .ok b₀ ∧ b.graph.Same b₀.graph ∧
    b.definitions = b₀.definitions.override origin.overrides

/-- The builder holds what the origin says, command hashes and the bytes of some paths aside. -/
def Shows (origin : Origin) (b : COBBuilder) : Prop :=
  ∃ b₀ f, parseText origin.disk.content origin.text .empty = .ok b₀ ∧
    b.graph.nodes = (b₀.graph.renamed f).nodes ∧
    b.graph.steps.map BuildStep.clearHash =
      (b₀.graph.renamed f).steps.map BuildStep.clearHash ∧
    b.definitions = b₀.definitions.override origin.overrides

/-- The builder that `parseBin` makes of a cache. -/
def Cache.builder (c : Cache) : COBBuilder := parseBin c.image .empty

/-- The origin of the builder of the run in progress. -/
def Phase.origin : Phase → Option Origin
  | .emitting _ _ origin => some origin
  | .parsed _ _ origin => some origin
  | .executing _ _ origin _ => some origin
  | _ => none

/-- The move may write the cache. -/
def Act.emits : Act → Bool
  | .emit _ => true
  | .finish _ => true
  | _ => false

/-- The move rewrites a file in place. -/
def Act.inPlace : Act → Bool
  | .overwrite .. => true
  | _ => false

/-- When a run writes the cache, the files that it has mapped show the paths that were parsed. -/
def EmitsIntact (w : World) (a : Act) : Prop := a.emits = true → w.Intact

instance (w : World) (a : Act) : Decidable (EmitsIntact w a) :=
  inferInstanceAs (Decidable (_ → _))

/-- The builder of the run in progress is as its origin says. -/
def Phase.Traced (told : Origin → COBBuilder → Prop) : Phase → Prop
  | .emitting _ b origin => told origin b
  | .parsed _ b origin => told origin b
  | .executing run b origin _ => told (origin.override run.request.overrides) b
  | _ => True

/-- The cache and the builder of the run in progress are as their origins say. -/
structure Traced (told : Origin → COBBuilder → Prop) (w : World) : Prop where
  cache : ∀ c, w.cache = some c → told c.origin c.builder
  phase : w.phase.Traced told

section Provenance

variable {rapidHash : Bytes → UInt64 → UInt64} {w : World} {b : COBBuilder} {origin : Origin}

/-- A described graph is well formed. -/
theorem Describes.wellFormed (h : Describes origin b) : b.graph.WellFormed := by
  obtain ⟨b₀, hb₀, hsame, -⟩ := h
  exact (built_parseText hb₀).wellFormed.of_same (Eq.symm hsame)

/-- A described graph can be stored. -/
theorem Describes.storable (h : Describes origin b) : Storable b.graph := by
  obtain ⟨b₀, hb₀, hsame, -⟩ := h
  exact (storable_parseText hb₀).of_same (Eq.symm hsame)

/-- A described builder is read back from the cache as it was written. -/
theorem Describes.parseBin (h : Describes origin b) {image : CacheImage}
    (himage : emitBin b = .ok image) : Cob.parseBin image .empty = b :=
  parseBin_emitBin h.storable himage

/-- The overrides of a run go to the origin. -/
theorem Describes.override (h : Describes origin b) (overrides : List (Bytes × Bytes)) :
    Describes (origin.override overrides) (b.override overrides) := by
  obtain ⟨b₀, hb₀, hsame, hdefs⟩ := h
  refine ⟨b₀, hb₀, by simpa using hsame, ?_⟩
  rw [COBBuilder.definitions_override, hdefs, Origin.override, Definitions.override_append]

theorem same_setHashes (g : BuildGraph) (commandHash : ℕ → UInt64) :
    (g.setHashes commandHash).Same g := by
  have hsteps : (g.setHashes commandHash).steps.map BuildStep.clearHash =
      g.steps.map BuildStep.clearHash := by
    refine List.ext_getElem? fun k => ?_
    simp only [BuildGraph.setHashes, List.getElem?_map, List.getElem?_mapIdx]
    cases g.steps[k]? <;> rfl
  exact congrArg (fun steps => (⟨g.nodes, steps, g.index⟩ : BuildGraph)) hsteps

/-- A build changes command hashes only. -/
theorem Describes.built (h : Describes origin b) (s : State BuildData Call) :
    Describes origin (b.built s) := by
  obtain ⟨b₀, hb₀, hsame, hdefs⟩ := h
  exact ⟨b₀, hb₀, (same_setHashes b.graph s.data.commandHash).trans hsame, hdefs⟩

/-- A described builder is shown. -/
theorem Describes.shows (h : Describes origin b) : Shows origin b := by
  obtain ⟨b₀, hb₀, hsame, hdefs⟩ := h
  refine ⟨b₀, id, hb₀, ?_, ?_, hdefs⟩
  · rw [BuildGraph.renamed_of_eq (f := id) fun _ => rfl, hsame.nodes]
  · rw [BuildGraph.renamed_of_eq (f := id) fun _ => rfl, hsame.steps]

theorem Shows.override (h : Shows origin b) (overrides : List (Bytes × Bytes)) :
    Shows (origin.override overrides) (b.override overrides) := by
  obtain ⟨b₀, f, hb₀, hnodes, hsteps, hdefs⟩ := h
  refine ⟨b₀, f, hb₀, by simpa using hnodes, by simpa using hsteps, ?_⟩
  rw [COBBuilder.definitions_override, hdefs, Origin.override, Definitions.override_append]

theorem Shows.built (h : Shows origin b) (s : State BuildData Call) :
    Shows origin (b.built s) := by
  obtain ⟨b₀, f, hb₀, hnodes, hsteps, hdefs⟩ := h
  refine ⟨b₀, f, hb₀, hnodes, ?_, hdefs⟩
  rw [← hsteps]
  exact (same_setHashes b.graph s.data.commandHash).steps

/-- The bytes of paths may change once more. -/
theorem Shows.shown (h : Shows origin b) (w : World) : Shows origin (w.shown b) := by
  obtain ⟨b₀, f, hb₀, hnodes, hsteps, hdefs⟩ := h
  refine ⟨b₀, shownPath w.mapped b.graph.steps ∘ f, hb₀, ?_, ?_, hdefs⟩
  · show (b.graph.nodes.map _ : List Node) = _
    rw [hnodes]
    simp [BuildGraph.renamed, Function.comp_def]
  · have hcommute : ∀ (f : Bytes → Bytes) (steps : List BuildStep),
        (steps.map (BuildStep.renamed f)).map BuildStep.clearHash =
          (steps.map BuildStep.clearHash).map (BuildStep.renamed f) := by
      intro f steps
      simp [Function.comp_def, BuildStep.clearHash_renamed]
    show ((b.graph.steps.map (BuildStep.renamed _)).map BuildStep.clearHash) = _
    rw [hcommute, hsteps]
    simp [BuildGraph.renamed, BuildStep.renamed, BuildStep.clearHash, Function.comp_def]

/-- Edges and steps are those of the text. -/
theorem Shows.linked (h : Shows origin b) : b.graph.Linked := by
  obtain ⟨b₀, f, hb₀, hnodes, hsteps, -⟩ := h
  exact (built_parseText hb₀).wellFormed.linked.renamed.congr hnodes hsteps

/-- A step of the builder is one of the text, the hash and the dependency-file inputs aside. -/
theorem Shows.exists_step (h : Shows origin b) {st : BuildStep} (hst : st ∈ b.graph.steps) :
    ∃ b₀ st₀ depfileInputs commandHash,
      parseText origin.disk.content origin.text .empty = .ok b₀ ∧ st₀ ∈ b₀.graph.steps ∧
        st = { st₀ with depfileInputs, commandHash } := by
  obtain ⟨b₀, f, hb₀, -, hsteps, -⟩ := h
  have hmem : st.clearHash ∈ (b₀.graph.renamed f).steps.map BuildStep.clearHash := by
    rw [← hsteps]
    exact List.mem_map_of_mem hst
  obtain ⟨st₁, hst₁, heq⟩ := List.mem_map.mp hmem
  obtain ⟨st₀, hst₀, rfl⟩ := List.mem_map.mp hst₁
  exact ⟨b₀, st₀, (st₀.renamed f).depfileInputs, st.commandHash, hb₀, hst₀,
    BuildStep.eq_of_clearHash heq.symm⟩

/-- What is read back from the cache is what was written, with an index of its nodes. -/
theorem Shows.parseBin_eq (h : Shows origin b) {image : CacheImage}
    (himage : emitBin b = .ok image) : Cob.parseBin image .empty =
      { b with graph := { b.graph with index := indexOfPaths (b.graph.nodes.map Node.path) } } := by
  refine parseBin_emitBin_of_resplit (fun st hst => ?_) himage
  obtain ⟨b₀, st₀, depfileInputs, commandHash, hb₀, hst₀, rfl⟩ := h.exists_step hst
  exact resplit_with ((storable_parseText hb₀).resplit_eq st₀ hst₀) _ _

/-- The cache after `emitBin` is the one from before, or it has just been written. -/
theorem emitted_cases {io : Option FileTime} {c : Cache} (hc : w.emitted b origin io = some c) :
    w.cache = some c ∨ c.origin = origin ∧ emitBin b = .ok c.image ∧ io = some c.mtime := by
  unfold World.emitted at hc
  split at hc
  · next image mtime himage =>
    obtain rfl := Option.some.inj hc
    exact .inr ⟨rfl, himage, rfl⟩
  · exact .inl hc

theorem usableCache_eq {buildFile : Bytes} {c : Cache} (h : w.usableCache buildFile = some c) :
    w.cache = some c ∧ ∃ f, w.disk.file buildFile = some f ∧ f.mtime < c.mtime := by
  unfold World.usableCache at h
  split at h
  · next c' t hc ht =>
    split_ifs at h with hlt
    obtain rfl := Option.some.inj h
    obtain ⟨f, hf, rfl⟩ := Option.map_eq_some_iff.mp ht
    exact ⟨hc, f, hf, hlt⟩
  · simp at h

/-- The rule for what builders say: parsing makes it so, and overrides, the hashes of a build and,
for the moves of the history, writing and reading the cache keep it. -/
theorem traced_via {G : World → Act → Prop} {told : Origin → COBBuilder → Prop}
    (parse : ∀ text disk b, parseText disk.content text .empty = .ok b → told ⟨text, disk, []⟩ b)
    (override : ∀ origin b overrides, told origin b →
      told (origin.override overrides) (b.override overrides))
    (built : ∀ origin b s, told origin b → told origin (b.built s))
    (emit : ∀ w a origin b image, G w a → a.emits = true → told origin b →
      emitBin (w.shown b) = .ok image → told origin (parseBin image .empty))
    (h : (world rapidHash).ReachableVia G w) : Traced told w := by
  refine Machine.ReachableVia.invariant (I := Traced told) ?_ ?_ h
  · rintro w ⟨hcache, hphase, -⟩
    exact ⟨by simp [hcache], by simp [hphase, Phase.Traced]⟩
  · intro w a w' _ hI hG hstep
    obtain ⟨hcache, hphase⟩ := hI
    -- both writes of the cache, the one after parsing and the one after the build
    have hemit : ∀ {b b' origin io}, told origin b → b' = w.shown b → a.emits = true →
        ∀ c, w.emitted b' origin io = some c → told c.origin c.builder := by
      intro b b' origin io hb hshown ha c hc
      rcases emitted_cases hc with hold | ⟨rfl, himage, -⟩
      · exact hcache c hold
      · exact emit w a c.origin b c.image hG ha hb (hshown ▸ himage)
    cases worldStep_cases hstep with
    | write => exact ⟨hcache, hphase⟩
    | overwrite => exact ⟨hcache, hphase⟩
    | remove => exact ⟨hcache, hphase⟩
    | removeCache => exact ⟨by simp, hphase⟩
    | launch => exact ⟨hcache, trivial⟩
    | useCache _ hc => exact ⟨hcache, hcache _ (usableCache_eq hc).1⟩
    | rejectCache => exact ⟨hcache, trivial⟩
    | readFailed => exact ⟨hcache, trivial⟩
    | read _ _ hb => exact ⟨hcache, parse _ _ _ hb⟩
    | emit hp hb' =>
      rw [hp] at hphase
      exact ⟨hemit hphase hb' rfl, hphase⟩
    | execute hp hb =>
      rw [hp] at hphase
      subst hb
      exact ⟨hcache, override _ _ _ hphase⟩
    | work hp =>
      rw [hp] at hphase
      exact ⟨hcache, hphase⟩
    | rewrite hp _ _ hb' =>
      rw [hp] at hphase
      exact ⟨hemit (built _ _ _ hphase) hb' rfl, trivial⟩
    | finish => exact ⟨hcache, trivial⟩
    | stop => exact ⟨hcache, trivial⟩

/-- In every history, caches and builders show their origins. -/
theorem shows (h : (world rapidHash).Reachable w) : Traced Shows w := by
  obtain ⟨tr, htr⟩ := h
  refine traced_via (G := fun _ _ => True) ?_ ?_ ?_ ?_ ⟨tr, htr, fun _ _ => trivial⟩
  · exact fun text disk b hb => (Describes.shows ⟨b, hb, rfl, rfl⟩)
  · exact fun origin b overrides hb => hb.override overrides
  · exact fun origin b s hb => hb.built s
  · intro w a origin b image _ _ hb himage
    rw [(hb.shown w).parseBin_eq himage]
    exact hb.shown w

/-- Where caches are written by intact runs only, caches and builders are described by their
origins. -/
theorem describes {G : World → Act → Prop} (hintact : ∀ w a, G w a → EmitsIntact w a)
    (h : (world rapidHash).ReachableVia G w) : Traced Describes w := by
  refine traced_via ?_ ?_ ?_ ?_ h
  · exact fun text disk b hb => ⟨b, hb, rfl, rfl⟩
  · exact fun origin b overrides hb => hb.override overrides
  · exact fun origin b s hb => hb.built s
  · intro w a origin b image hG ha hb himage
    rw [(hintact w a hG ha).shown_eq] at himage
    rwa [hb.parseBin himage]

/-- Where files are replaced and none is rewritten in place, the mapped files are always intact. -/
theorem intact_of_replaced
    (h : (world rapidHash).ReachableVia (fun _ a => a.inPlace = false) w) : w.Intact := by
  suffices hshown : ∀ m ∈ w.mapped, m.shown = m.content from
    fun m hm => Mapping.intact_of_prefix (hshown m hm ▸ List.prefix_refl _)
  -- induction over the history: mapped files show what they had when they were mapped
  refine Machine.ReachableVia.invariant (I := fun w => ∀ m ∈ w.mapped, m.shown = m.content) ?_ ?_ h
  · rintro w ⟨-, -, hnone⟩
    simp [hnone]
  · intro w a w' _ hI hreplaced hstep
    have hdetach : ∀ path, ∀ m ∈ w.mapped.map (Mapping.detach path), m.shown = m.content := by
      intro path m hm
      obtain ⟨m₀, hm₀, rfl⟩ := List.mem_map.mp hm
      simpa using hI m₀ hm₀
    cases worldStep_cases hstep with
    | write => exact hdetach _
    | overwrite => simp [Act.inPlace] at hreplaced
    | remove => exact hdetach _
    | launch => simp
    | read =>
      intro m hm
      simp only [mappings, List.mem_filterMap, Option.map_eq_some_iff] at hm
      obtain ⟨st, -, content, -, rfl⟩ := hm
      rfl
    | work =>
      intro m hm
      obtain ⟨m₀, hm₀, rfl⟩ := List.mem_map.mp hm
      split_ifs <;> simpa using hI m₀ hm₀
    | _ => exact hI

/-- The cache and the run in progress come from origins with `P`, for runs with `Q`. -/
structure Origins (P : Disk → Origin → Prop) (Q : Run → Prop) (w : World) : Prop where
  cache : ∀ c, w.cache = some c → P w.disk c.origin
  run : ∀ run, w.phase.run = some run → Q run
  origin : ∀ origin, w.phase.origin = some origin → P w.disk origin

/-- The invariant rule for origins: launched runs have `Q`, a text that is read becomes an origin
with `P`, and neither the overrides of a run nor the moves of the history take `P` away. -/
theorem origins_via {G : World → Act → Prop} {P : Disk → Origin → Prop} {Q : Run → Prop}
    (launch : ∀ w request, G w (.launch request) → Q ⟨request, w.disk⟩)
    (read : ∀ (disk : Disk) (run : Run) text, Q run →
      disk.content run.request.buildFile = some text → P disk ⟨text, disk, []⟩)
    (override : ∀ disk origin run, Q run → P disk origin →
      P disk (origin.override run.request.overrides))
    (frame : ∀ w a w' origin, G w a → w.step rapidHash a = some w' → P w.disk origin →
      P w'.disk origin)
    (h : (world rapidHash).ReachableVia G w) : Origins P Q w := by
  refine Machine.ReachableVia.invariant (I := Origins P Q) ?_ ?_ h
  · rintro w ⟨hcache, hphase, -⟩
    exact ⟨by simp [hcache], by simp [hphase, Phase.run], by simp [hphase, Phase.origin]⟩
  · intro w a w' hr hI hG hstep
    -- origins sit in the cache and in the phase; a move of the history keeps both or replaces one
    have hkeep : ∀ origin, P w.disk origin → P w'.disk origin := fun origin =>
      frame w a w' origin hG hstep
    obtain ⟨hcache, hrun, horigin⟩ := hI
    cases worldStep_cases hstep with
    | write =>
      exact ⟨fun c hc => hkeep _ (hcache c hc), hrun, fun o ho => hkeep _ (horigin o ho)⟩
    | overwrite =>
      exact ⟨fun c hc => hkeep _ (hcache c hc), hrun, fun o ho => hkeep _ (horigin o ho)⟩
    | remove =>
      exact ⟨fun c hc => hkeep _ (hcache c hc), hrun, fun o ho => hkeep _ (horigin o ho)⟩
    | removeCache => exact ⟨by simp, hrun, horigin⟩
    | @launch request =>
      refine ⟨hcache, ?_, by simp [Phase.origin]⟩
      rintro run ⟨rfl⟩
      exact launch w request hG
    | useCache hp hc =>
      refine ⟨hcache, ?_, ?_⟩
      · rintro run ⟨rfl⟩
        exact hrun _ (by rw [hp]; rfl)
      · rintro origin ⟨rfl⟩
        exact hcache _ (usableCache_eq hc).1
    | rejectCache hp =>
      refine ⟨hcache, ?_, by simp [Phase.origin]⟩
      rintro run ⟨rfl⟩
      exact hrun _ (by rw [hp]; rfl)
    | readFailed => exact ⟨hcache, by simp [Phase.run], by simp [Phase.origin]⟩
    | @read run text b hp htext =>
      have hQ := hrun run (by rw [hp]; rfl)
      refine ⟨hcache, ?_, ?_⟩
      · rintro run ⟨rfl⟩
        exact hQ
      · rintro origin ⟨rfl⟩
        exact read w.disk run text hQ htext
    | @emit run b b' origin io hp =>
      have hP := horigin origin (by rw [hp]; rfl)
      refine ⟨fun c hc => ?_, ?_, ?_⟩
      · -- a write that failed leaves the old cache, a write that went through takes the run's
        -- origin
        rcases emitted_cases hc with hold | ⟨rfl, -⟩
        · exact hcache c hold
        · exact hP
      · rintro run ⟨rfl⟩
        exact hrun _ (by rw [hp]; rfl)
      · rintro origin ⟨rfl⟩
        exact hP
    | execute hp =>
      refine ⟨hcache, ?_, ?_⟩
      · rintro run ⟨rfl⟩
        exact hrun _ (by rw [hp]; rfl)
      · rintro origin ⟨rfl⟩
        exact horigin _ (by rw [hp]; rfl)
    | work hp =>
      refine ⟨fun c hc => hkeep _ (hcache c hc), ?_, ?_⟩
      · rintro run ⟨rfl⟩
        exact hrun _ (by rw [hp]; rfl)
      · rintro origin ⟨rfl⟩
        exact hkeep _ (horigin _ (by rw [hp]; rfl))
    | @rewrite run b b' origin s io hp =>
      have hP := horigin origin (by rw [hp]; rfl)
      have hQ := hrun run (by rw [hp]; rfl)
      refine ⟨fun c hc => ?_, by simp [Phase.run], by simp [Phase.origin]⟩
      -- the last write: its cache holds the definitions as the run overrode them
      rcases emitted_cases hc with hold | ⟨ho, -⟩
      · exact hcache c hold
      · exact ho ▸ override w.disk origin run hQ hP
    | finish => exact ⟨hcache, by simp [Phase.run], by simp [Phase.origin]⟩
    | stop => exact ⟨hcache, by simp [Phase.run], by simp [Phase.origin]⟩

end Provenance

end Cob
