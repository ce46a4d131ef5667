import Cob.History.Dependencies

/-!
# Overrides in the cache

A run that rewrites the cache at its end writes the definitions it was run with, the overridden
ones included. So a later run is built with the definitions of the manifest and its own overrides
exactly when the overrides that went into the cache left no trace (`definitions_iff`), and one run
with an override is enough to change the next (`not_definitions`).
-/

namespace Cob

/-- The builder that `main` hands to the executor, with the overrides of the run applied. -/
def Phase.handed : Phase → Option COBBuilder
  | .parsed run b _ => some (b.override run.request.overrides)
  | .executing _ b _ _ => some b
  | _ => none

section Overrides

variable {rapidHash : Bytes → UInt64 → UInt64} {buildFile : Bytes} {w : World} {run : Run}
  {b : COBBuilder} {origin : Origin}

/-- What the executor gets shows the origin and the overrides of the run. -/
theorem shows_handed (h : (world rapidHash).Reachable w) (hrun : w.phase.run = some run)
    (horigin : w.phase.origin = some origin) (hb : w.phase.handed = some b) :
    Shows (origin.override run.request.overrides) b := by
  have htraced := (shows h).phase
  cases hp : w.phase with
  | parsed run' b' origin' =>
    rw [hp] at htraced hrun horigin hb
    obtain rfl : run' = run := Option.some.inj hrun
    obtain rfl : origin' = origin := Option.some.inj horigin
    obtain rfl := Option.some.inj hb
    exact Shows.override htraced _
  | executing run' b' origin' s =>
    rw [hp] at htraced hrun horigin hb
    obtain rfl : run' = run := Option.some.inj hrun
    obtain rfl : origin' = origin := Option.some.inj horigin
    obtain rfl : b' = b := Option.some.inj hb
    exact htraced
  | _ =>
    rw [hp] at hb
    simp [Phase.handed] at hb

/-- Over a manifest that never changes, the commands of a run are built from the definitions of
the manifest and the overrides of the run exactly when every definition that earlier runs overrode
before they wrote the cache has its value of the manifest, or is overridden by this run too. -/
theorem definitions_iff
    (h : (world rapidHash).ReachableVia (OneManifest rapidHash buildFile) w)
    (hrun : w.phase.run = some run) (horigin : w.phase.origin = some origin)
    (hb : w.phase.handed = some b) :
    ∃ text m, w.disk.content buildFile = some text ∧ manifestOf text = .ok m ∧
      (b.definitions = m.definitions.override run.request.overrides ↔
        ∀ key, key ∉ run.request.overrides.map Prod.fst →
          (m.definitions.override origin.overrides).find key = m.definitions.find key) := by
  obtain ⟨b₀, -, hb₀, -, -, hdefs⟩ := shows_handed h.reachable hrun horigin hb
  obtain ⟨m, hm, hdefs₀, -⟩ := parseText_eq_ok.mp hb₀
  have htext := (origins_oneManifest h).origin origin horigin
  refine ⟨origin.text, m, htext, hm, ?_⟩
  rw [hdefs, hdefs₀, Origin.override, Definitions.override_append]
  exact Definitions.override_override_eq_iff m.definitions origin.overrides run.request.overrides

end Overrides

/-- A build with the compiler overridden, and the next one. -/
def overriddenBuild : List Act :=
  [.launch (buildRequest [(ascii "cc", ascii "clang")]), .check, .read, .emit (some 10),
    .execute [0], .work .spawn] ++ List.replicate 15 (.work (.work 0 ⟨some 0, 12⟩)) ++
    [.finish (some 13), .launch (buildRequest []), .check, .execute [0]]

/-- The second run executes. -/
theorem definitions_iff_nextRun : ∃ w run b origin,
    (world sumHash).ReachableVia (OneManifest sumHash (ascii "catalyst.build")) w ∧
    w.phase.run = some run ∧ w.phase.origin = some origin ∧ w.phase.handed = some b ∧
    ∃ text m, w.disk.content (ascii "catalyst.build") = some text ∧ manifestOf text = .ok m ∧
      (b.definitions = m.definitions.override run.request.overrides ↔
        ∀ key, key ∉ run.request.overrides.map Prod.fst →
          (m.definitions.override origin.overrides).find key = m.definitions.find key) := by
  obtain ⟨w, hvia, hw⟩ := Machine.exists_via_of_exec (M := world sumHash)
    (G := OneManifest sumHash (ascii "catalyst.build")) (s := compileWorld) ⟨rfl, rfl, rfl⟩
    overriddenBuild
    (fun w => w.phase.run.isSome && w.phase.origin.isSome && w.phase.handed.isSome)
    (by decide +kernel)
  simp only [Bool.and_eq_true, Option.isSome_iff_exists] at hw
  obtain ⟨⟨⟨run, hrun⟩, origin, horigin⟩, b, hb⟩ := hw
  exact ⟨w, run, b, origin, hvia, hrun, horigin, hb, definitions_iff hvia hrun horigin hb⟩

/-- The run in progress has other definitions than the manifest and its own overrides give. -/
def overridden (w : World) : Bool :=
  match w.phase.run, w.phase.handed, w.disk.content (ascii "catalyst.build") with
  | some run, some b, some text =>
    match manifestOf text with
    | .ok m => decide (b.definitions ≠ m.definitions.override run.request.overrides)
    | .error _ => false
  | _, _, _ => false

/-- The override of the first run is still there in the second. -/
theorem not_definitions : ¬ ∀ (rapidHash : Bytes → UInt64 → UInt64) (buildFile text : Bytes)
    (w : World) (run : Run) (b : COBBuilder) (m : Manifest),
    (world rapidHash).ReachableVia (OneManifest rapidHash buildFile) w →
    w.phase.run = some run → w.phase.handed = some b →
    w.disk.content buildFile = some text → manifestOf text = .ok m →
    b.definitions = m.definitions.override run.request.overrides := by
  intro hall
  obtain ⟨w, hvia, hw⟩ := Machine.exists_via_of_exec (M := world sumHash)
    (G := OneManifest sumHash (ascii "catalyst.build")) (s := compileWorld) ⟨rfl, rfl, rfl⟩
    overriddenBuild overridden (by decide +kernel)
  unfold overridden at hw
  split at hw
  · next run b text hrun hb htext =>
    split at hw
    · next m hm => exact of_decide_eq_true hw (hall _ _ text w run b m hvia hrun hb htext hm)
    · simp at hw
  · simp at hw

end Cob
