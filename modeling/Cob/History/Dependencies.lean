import Cob.History.Provenance

/-!
# Dependencies in the cache

The prerequisites that compilers write are read when the manifest is parsed from text, and only
then; the cache keeps what was found, provided that the mapped files show it when the cache is
written. So over a manifest that never changes, the cached graph is the one the text would give now
exactly when the dependency files say what they said at that time (`cached_agrees_iff`). The first
build of a step breaks this: the cache is written before, the dependency file by the build
(`not_cached_agrees`).
-/

namespace Cob

open BuildGraph

/-- An edge between the nodes of two paths. -/
def EdgeBetween (g : BuildGraph) (p q : Bytes) : Prop :=
  ∃ u v, g.pathOf u = some p ∧ g.pathOf v = some q ∧ g.Edge u v

/-- The graphs agree, command hashes aside: on the steps with their dependency-file inputs, on the
paths of the nodes and on the edges between them. -/
structure Agrees (g g' : BuildGraph) : Prop where
  steps : g.steps.map BuildStep.clearHash = g'.steps.map BuildStep.clearHash
  paths : ∀ p, (∃ v, g.pathOf v = some p) ↔ ∃ v, g'.pathOf v = some p
  edges : ∀ p q, EdgeBetween g p q ↔ EdgeBetween g' p q

/-- Every run names the one manifest, and no move changes it. -/
def OneManifest (rapidHash : Bytes → UInt64 → UInt64) (buildFile : Bytes) (w : World) (a : Act) :
    Prop :=
  (∀ request ∈ a.request, request.buildFile = buildFile) ∧ w.Keeps rapidHash a buildFile

instance (rapidHash : Bytes → UInt64 → UInt64) (buildFile : Bytes) (w : World) (a : Act) :
    Decidable (OneManifest rapidHash buildFile w a) :=
  inferInstanceAs (Decidable (_ ∧ _))

section Dependencies

variable {rapidHash : Bytes → UInt64 → UInt64} {buildFile : Bytes} {w : World}

/-- Over one manifest, every origin has its text. -/
theorem origins_oneManifest
    (h : (world rapidHash).ReachableVia (OneManifest rapidHash buildFile) w) :
    Origins (fun disk origin => disk.content buildFile = some origin.text)
      (fun run => run.request.buildFile = buildFile) w := by
  refine origins_via ?_ ?_ ?_ ?_ h
  · exact fun w request hG => hG.1 request rfl
  · exact fun disk run text hrun htext => hrun ▸ htext
  · exact fun disk origin run _ hP => hP
  · intro w a w' origin hG hstep hP
    exact (Disk.content_congr (hG.2 w' hstep)).trans hP

theorem Same.agrees {g g' : BuildGraph} (h : g.Same g') : Agrees g g' := by
  have hpath : ∀ v, g.pathOf v = g'.pathOf v := fun v => by rw [pathOf, pathOf, h.nodes]
  have hedge : ∀ u v, g.Edge u v ↔ g'.Edge u v := fun u v => by rw [Edge, Edge, h.nodes]
  exact ⟨h.steps, fun p => by simp only [hpath],
    fun p q => by simp only [EdgeBetween, hpath, hedge]⟩

/-- The prerequisites of a step do not depend on its inputs column. -/
theorem depfilePrerequisites_splitInputs (read : Bytes → Option Bytes) (st : BuildStep) :
    depfilePrerequisites read st.splitInputs = depfilePrerequisites read st := by
  obtain ⟨htool, -, hout, -⟩ := splitInputs_frame st
  have hcompile : st.splitInputs.isCompile = st.isCompile := by simp [BuildStep.isCompile, htool]
  have hpath : st.splitInputs.depfilePath = st.depfilePath := by
    rw [BuildStep.depfilePath, hout]
    rfl
  rw [depfilePrerequisites, hcompile, hpath]
  rfl

/-- Over a manifest that never changes, where caches are written by intact runs, a usable cache
agrees with the text exactly when the dependency files of the compile steps have the prerequisites
that they had when the manifest was parsed for this cache. -/
theorem cached_agrees_iff
    (h : (world rapidHash).ReachableVia
      (fun w a => OneManifest rapidHash buildFile w a ∧ EmitsIntact w a) w) {c : Cache}
    (hc : w.usableCache buildFile = some c) :
    ∃ text m b, w.disk.content buildFile = some text ∧ manifestOf text = .ok m ∧
      parseText w.disk.content text .empty = .ok b ∧ w.parse buildFile = some c.builder ∧
      (Agrees c.builder.graph b.graph ↔ ∀ st ∈ m.steps, st.isCompile = true →
        depfilePrerequisites w.disk.content st =
          depfilePrerequisites c.origin.disk.content st) := by
  have hcache := (usableCache_eq hc).1
  obtain ⟨b₀, hb₀, hsame, -⟩ := (describes (fun _ _ => And.right) h).cache c hcache
  have htext := (origins_oneManifest (h.mono fun _ _ => And.left)).cache c hcache
  have hex : ∃ b, parseText w.disk.content c.origin.text .empty = .ok b := exists_parseText hb₀
  obtain ⟨b, hb⟩ := hex
  obtain ⟨m, hm, -, hadd₀⟩ := parseText_eq_ok.mp hb₀
  obtain ⟨m', hm', -, hadd⟩ := parseText_eq_ok.mp hb
  obtain rfl : m = m' := Except.ok.inj (hm.symm.trans hm')
  refine ⟨c.origin.text, m, b, htext, hm, hb, by simp [World.parse, hc, Cache.builder], ?_, ?_⟩
  · intro hagrees st hst _
    -- the stored steps tell which prerequisites were found
    have hsteps := hsame.steps.symm.trans hagrees.steps
    rw [steps_addSteps hadd₀, steps_addSteps hadd] at hsteps
    simp only [BuildGraph.empty, List.nil_append, List.map_map] at hsteps
    have hlive : (liveStep c.origin.disk.content st).clearHash =
        (liveStep w.disk.content st).clearHash := List.map_inj_left.mp hsteps st hst
    have hinputs : (liveStep c.origin.disk.content st).depfileInputs =
        (liveStep w.disk.content st).depfileInputs := by rw [BuildStep.eq_of_clearHash hlive]
    have hnone := (raw_manifestOf hm st hst).depfileInputs
    rw [← depfilePrerequisites_splitInputs w.disk.content st,
      ← depfilePrerequisites_splitInputs c.origin.disk.content st,
      ← depfileInputs_liveStep hnone, ← depfileInputs_liveStep hnone, hinputs]
  · intro hfound
    have hgraph : b.graph = b₀.graph := by
      refine Except.ok.inj (hadd.symm.trans ((addSteps_congr _ fun st hst => ?_).trans hadd₀))
      by_cases hcompile : st.isCompile = true
      · rw [depfilePrerequisites_splitInputs, depfilePrerequisites_splitInputs]
        exact hfound st hst hcompile
      · have hno := Bool.eq_false_of_not_eq_true hcompile
        rw [depfilePrerequisites_of_not_isCompile hno, depfilePrerequisites_of_not_isCompile hno]
    exact hgraph ▸ Same.agrees hsame

end Dependencies

/-! ### The first build of a compile step -/

/-- A hash to run histories with. -/
def sumHash (bytes : Bytes) (seed : UInt64) : UInt64 :=
  bytes.foldl (fun hash b => hash * 31 + b.toUInt64) (seed + 1)

/-- A manifest with one compile step. -/
def compileText : Bytes := ascii "DEF|cc|gcc\ncc|main.c|main.o\n"

/-- The manifest and the source, nothing built yet. -/
def compileWorld : World where
  disk := ⟨[(ascii "catalyst.build", ⟨1, .text compileText⟩), (ascii "main.c", ⟨2, .unknown⟩)]⟩
  cache := none
  phase := .idle

/-- A build with one worker. -/
def buildRequest (overrides : List (Bytes × Bytes)) : Request :=
  ⟨ascii "catalyst.build", overrides, ⟨1, false⟩, false, true⟩

/-- The first build: while the compiler runs, it writes the dependency file. -/
def firstBuild : List Act :=
  [.launch (buildRequest []), .check, .read, .emit (some 10), .execute [0], .work .spawn] ++
    List.replicate 7 (.work (.work 0 ⟨none, 0⟩)) ++
    [.write (ascii "main.o.d") ⟨11, .text (ascii "main.o: main.c util.h\n")⟩] ++
    List.replicate 8 (.work (.work 0 ⟨some 0, 12⟩)) ++ [.finish (some 13)]

/-- At the second run the cache is usable. -/
theorem cached_agrees_iff_secondRun : ∃ w c,
    (world sumHash).ReachableVia
      (fun w a => OneManifest sumHash (ascii "catalyst.build") w a ∧ EmitsIntact w a) w ∧
    w.usableCache (ascii "catalyst.build") = some c ∧
    ∃ text m b, w.disk.content (ascii "catalyst.build") = some text ∧ manifestOf text = .ok m ∧
      parseText w.disk.content text .empty = .ok b ∧
      w.parse (ascii "catalyst.build") = some c.builder ∧
      (Agrees c.builder.graph b.graph ↔ ∀ st ∈ m.steps, st.isCompile = true →
        depfilePrerequisites w.disk.content st =
          depfilePrerequisites c.origin.disk.content st) := by
  obtain ⟨w, hvia, hw⟩ := Machine.exists_via_of_exec (M := world sumHash)
    (G := fun w a => OneManifest sumHash (ascii "catalyst.build") w a ∧ EmitsIntact w a)
    (s := compileWorld) ⟨rfl, rfl, rfl⟩ (firstBuild ++ [.launch (buildRequest [])])
    (fun w => (w.usableCache (ascii "catalyst.build")).isSome) (by decide +kernel)
  obtain ⟨c, hc⟩ := Option.isSome_iff_exists.mp hw
  exact ⟨w, c, hvia, hc, cached_agrees_iff hvia hc⟩

/-- The text path would find other steps than the ones in the usable cache. -/
def stale (w : World) : Bool :=
  match w.usableCache (ascii "catalyst.build"), w.disk.content (ascii "catalyst.build") with
  | some c, some text =>
    match parseText w.disk.content text .empty with
    | .ok b => decide (c.builder.graph.steps.map BuildStep.clearHash ≠
        b.graph.steps.map BuildStep.clearHash)
    | .error _ => false
  | _, _ => false

/-- The graph that the second run loads misses the prerequisites that the first build found. -/
theorem not_cached_agrees : ¬ ∀ (rapidHash : Bytes → UInt64 → UInt64) (buildFile text : Bytes)
    (w : World) (c : Cache) (b : COBBuilder),
    (world rapidHash).ReachableVia (OneManifest rapidHash buildFile) w →
    w.usableCache buildFile = some c → w.disk.content buildFile = some text →
    parseText w.disk.content text .empty = .ok b → Agrees c.builder.graph b.graph := by
  intro hall
  obtain ⟨w, hvia, hw⟩ := Machine.exists_via_of_exec (M := world sumHash)
    (G := OneManifest sumHash (ascii "catalyst.build")) (s := compileWorld) ⟨rfl, rfl, rfl⟩
    (firstBuild ++ [.launch (buildRequest [])]) stale (by decide +kernel)
  unfold stale at hw
  split at hw
  · next c text hc htext =>
    split at hw
    · next b hb => exact of_decide_eq_true hw (hall _ _ text w c b hvia hc htext hb).steps
    · simp at hw
  · simp at hw

end Cob
