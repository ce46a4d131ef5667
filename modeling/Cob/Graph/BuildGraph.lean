import Cob.Graph.Depfile
import Mathlib.Logic.Relation

/-!
# The build graph

`BuildStep` and `BuildGraph` with `getOrCreateNode` and `addStep`. Nodes are files; an edge leads
from an input to the output of the step that reads it. Views into mapped files are the bytes they
show, so owned and borrowed lists are both plain lists, and the node index is an association
list, the newest entry first.
-/

namespace Cob

/-- `catalyst::optional_vector` filled by `push_back`: allocated by the first element. -/
def pushBack {α : Type} (v : Option (List α)) (a : α) : Option (List α) := some (v.getD [] ++ [a])

/-- One build step of the manifest. -/
structure BuildStep where
  /-- The tool column. -/
  tool : Bytes
  /-- The raw comma-separated inputs column. -/
  inputs : Bytes
  /-- The file the step writes. -/
  output : Bytes
  /-- Inputs marked with `!`: tracked, but not passed to the tool. -/
  opaqueInputs : Option (List Bytes) := none
  /-- Inputs found in the dependency file. -/
  depfileInputs : Option (List Bytes) := none
  /-- Inputs passed to the tool. -/
  parsedInputs : List Bytes := []
  /-- Extra arguments, blank-separated. -/
  extraFlags : Bytes := []
  /-- Hash of the command that generated the output, `0` when unknown. -/
  commandHash : UInt64 := 0
  deriving DecidableEq

namespace BuildStep

/-- Every file the step depends on. -/
def allInputs (st : BuildStep) : List Bytes :=
  st.depfileInputs.getD [] ++ st.parsedInputs ++ st.opaqueInputs.getD []

/-- The `cc` and `cxx` steps, the ones with a dependency file. -/
def isCompile (st : BuildStep) : Bool := st.tool = ascii "cc" ∨ st.tool = ascii "cxx"

/-- `std::format("{}.d", output)`. -/
def depfilePath (st : BuildStep) : Bytes := st.output ++ ascii ".d"

/-- The input loop of `addStep`: a part with a leading `!` is opaque, any other is parsed. -/
def pushInput (st : BuildStep) (part : Bytes) : BuildStep :=
  match part with
  | [] => st
  | c :: rest =>
    if c = chr '!' then { st with opaqueInputs := pushBack st.opaqueInputs rest }
    else { st with parsedInputs := st.parsedInputs ++ [part] }

/-- The step after its inputs column was split. -/
def splitInputs (st : BuildStep) : BuildStep := (Bytes.commaParts st.inputs).foldl pushInput st

end BuildStep

/-- A file of the graph. -/
structure Node where
  /-- The path, exactly as written. -/
  path : Bytes
  /-- The nodes that depend on this one, one entry for each time they name it. -/
  outEdges : List ℕ
  /-- The step that produces the file, none for a source. -/
  stepId : Option ℕ
  deriving DecidableEq

/-- Nodes, steps and the index from paths to nodes. -/
structure BuildGraph where
  nodes : List Node
  steps : List BuildStep
  index : List (Bytes × ℕ)
  deriving DecidableEq

namespace BuildGraph

/-- The graph of a fresh builder. -/
def empty : BuildGraph := ⟨[], [], []⟩

/-- `findNode`. -/
def findNode (g : BuildGraph) (path : Bytes) : Option ℕ := g.index.lookup path

/-- `getOrCreateNode`. -/
def getOrCreateNode (g : BuildGraph) (path : Bytes) : BuildGraph × ℕ :=
  match g.findNode path with
  | some i => (g, i)
  | none =>
    ({ g with
        nodes := g.nodes ++ [⟨path, [], none⟩]
        index := (path, g.nodes.length) :: g.index },
      g.nodes.length)

/-- `nodes_m[from].out_edges.push_back(to)`. -/
def pushEdge (g : BuildGraph) (src dst : ℕ) : BuildGraph :=
  { g with nodes := g.nodes.modify src fun n => { n with outEdges := n.outEdges ++ [dst] } }

/-- The node of an input, and its edge to the output node `out`. -/
def addInput (out : ℕ) (g : BuildGraph) (path : Bytes) : BuildGraph :=
  (g.getOrCreateNode path).1.pushEdge (g.getOrCreateNode path).2 out

/-- The nodes and edges of several inputs, in order. -/
def addInputs (g : BuildGraph) (out : ℕ) (paths : List Bytes) : BuildGraph :=
  paths.foldl (addInput out) g

/-- `nodes_m[node].step_id = step`. -/
def setStepId (g : BuildGraph) (node step : ℕ) : BuildGraph :=
  { g with nodes := g.nodes.modify node fun n => { n with stepId := some step } }

/-- The prerequisites `addStep` finds for a step: those of its dependency file, for a compile
step that has one. `read` answers with the contents of the files that exist. -/
def depfilePrerequisites (read : Bytes → Option Bytes) (st : BuildStep) : List Bytes :=
  if st.isCompile then ((read st.depfilePath).map parseDepfile).getD [] else []

/-- The step with the prerequisites of its dependency file pushed. -/
def pushDepfileInputs (st : BuildStep) (paths : List Bytes) : BuildStep :=
  { st with depfileInputs := paths.foldl pushBack st.depfileInputs }

/-- `addStep`: the graph with the step, or an error when another step has the same output. The
edges of dependency-file inputs come first, then the parsed and the opaque ones. -/
def addStep (read : Bytes → Option Bytes) (g : BuildGraph) (step : BuildStep) :
    Except Bytes BuildGraph :=
  let (g₁, out) := g.getOrCreateNode step.output
  if ((g₁.nodes[out]?).bind Node.stepId).isSome then
    .error (ascii "Duplicate producer for output: " ++ step.output)
  else
    let st := step.splitInputs
    let found := depfilePrerequisites read st
    -- dependency-file inputs that the step came with are kept, but only those found get an edge
    let live := pushDepfileInputs st found
    let g₂ := { g₁.setStepId out g₁.steps.length with steps := g₁.steps ++ [live] }
    let g₃ := g₂.addInputs out found
    let g₄ := g₃.addInputs out live.parsedInputs
    .ok (g₄.addInputs out (live.opaqueInputs.getD []))

/-- Adding several steps, up to the first that fails. -/
def addSteps (read : Bytes → Option Bytes) (g : BuildGraph) (steps : List BuildStep) :
    Except Bytes BuildGraph := steps.foldlM (addStep read) g

/-- `node u` has an edge to `v`. -/
def Edge (g : BuildGraph) (u v : ℕ) : Prop := ∃ n, g.nodes[u]? = some n ∧ v ∈ n.outEdges

/-- No directed cycle. -/
def Acyclic (g : BuildGraph) : Prop := ∀ v, ¬ Relation.TransGen g.Edge v v

/-- Whether some step produces the node. -/
def isStep (g : BuildGraph) (v : ℕ) : Bool := ((g.nodes[v]?).bind Node.stepId).isSome

/-- The edges out of a node, with repetitions. -/
def outEdges (g : BuildGraph) (v : ℕ) : List ℕ := ((g.nodes[v]?).map Node.outEdges).getD []

/-- The step that produces a node. -/
def stepOf (g : BuildGraph) (v : ℕ) : Option BuildStep :=
  ((g.nodes[v]?).bind Node.stepId).bind (g.steps[·]?)

/-- The graphs `addStep` can build from the empty one, whatever the dependency files hold. As
every caller does, the steps are passed without dependency-file inputs. -/
inductive Built : BuildGraph → Prop
  | empty : Built BuildGraph.empty
  | addStep {g g' : BuildGraph} {read : Bytes → Option Bytes} {step : BuildStep} :
      Built g → step.depfileInputs = none → g.addStep read step = .ok g' → Built g'

end BuildGraph

end Cob
