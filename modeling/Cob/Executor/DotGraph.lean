import Cob.Executor.Freshness
import Cob.Executor.NeedsRebuild
import Cob.Lib.Dot

/-!
# The graph of a build as a DOT text

What a DOT reader makes of the text that `emitGraph` writes, which escapes nothing.

* `dotGraph` — the graph that the text is meant to say;
* `read_dotGraph` — the text says it, when no path has a quote or a backslash;
* `read_emitGraph` — the nodes, the edges and the colours that the reader finds.
-/

namespace Cob

open Dot (Token Statement Lexes)

/-- The name of a node. -/
def nodeName (i : ℕ) : Bytes := chr 'n' :: ascii (toString i)

/-- A line of the text. -/
inductive DotLine where
  | node (i : ℕ) (path : Bytes) (color : Color)
  | edge (i target : ℕ)

namespace DotLine

/-- As `emitGraph` writes it. -/
def text : DotLine → Bytes
  | .node i path color => nodeId i ++ ascii " [label=\"" ++ path ++ ascii "\", fillcolor=\"" ++
      color.text ++ ascii "\"];\n"
  | .edge i target => nodeId i ++ ascii " -> n" ++ ascii (toString target) ++ ascii ";\n"

/-- Its tokens, without the semicolon. -/
def tokens : DotLine → List Token
  | .node i path color =>
    [.word (nodeName i), .punct (chr '['), .word (ascii "label"), .punct (chr '='), .quoted path,
      .punct (chr ','), .word (ascii "fillcolor"), .punct (chr '='), .quoted color.text,
      .punct (chr ']')]
  | .edge i target => [.word (nodeName i), .arrow, .word (nodeName target)]

/-- What it says. -/
def statement : DotLine → Statement
  | .node i path color =>
    .attributes (nodeName i) [(ascii "label", path), (ascii "fillcolor", color.text)]
  | .edge i target => .edge (nodeName i) (nodeName target)

/-- The path of the line has neither quotes nor backslashes. -/
def Plain : DotLine → Prop
  | .node _ path _ => chr '"' ∉ path ∧ chr '\\' ∉ path
  | .edge _ _ => True

end DotLine

section Text

variable (ctx : StepContext) (disk : Disk)

/-- The lines about the nodes and their edges. -/
def dotLines : List DotLine :=
  (ctx.graph.nodes.zip (colors ctx disk)).zipIdx.flatMap fun e =>
    .node e.2 e.1.1.path e.1.2 :: e.1.1.outEdges.map (.edge e.2)

/-- The graph of a build, with its colours. -/
def dotGraph : Dot.Graph where
  name := ascii "catalyst_build"
  statements :=
    .assign (ascii "rankdir") (ascii "LR") ::
      .attributes (ascii "node") [(ascii "shape", ascii "box"), (ascii "style", ascii "filled"),
        (ascii "fontname", ascii "Helvetica")] ::
      (dotLines ctx disk).map DotLine.statement

variable {ctx disk}

theorem emitGraph_eq : emitGraph ctx disk =
    ascii "digraph catalyst_build \x7b\n  rankdir=LR;\n" ++
      ascii "  node [shape=box, style=filled, fontname=\"Helvetica\"];\n" ++
        (dotLines ctx disk).flatMap DotLine.text ++ ascii "\x7d\n" := by
  have hlines : (dotLines ctx disk).flatMap DotLine.text =
      (ctx.graph.nodes.zip (colors ctx disk)).zipIdx.flatMap fun e =>
        nodeText e.2 e.1.1 e.1.2 := by
    rw [dotLines, List.flatMap_assoc]
    refine List.flatMap_congr fun e _ => ?_
    rw [List.flatMap_cons, List.flatMap_map]
    rfl
  rw [hlines]
  rfl

/-! ### Lexing -/

/-- The digits of a number, as characters. -/
theorem exists_digit {c : UInt8} {i : ℕ} (hc : c ∈ ascii (toString i)) :
    ∃ d ∈ Nat.toDigits 10 i, 48 ≤ d.toNat ∧ d.toNat ≤ 57 ∧ c.toNat = d.toNat := by
  obtain ⟨d, hd, rfl⟩ := List.mem_map.mp hc
  rw [Nat.toString_eq_repr, Nat.toList_repr] at hd
  have hdigit := Nat.isDigit_of_mem_toDigits (by decide) (by decide) hd
  obtain ⟨hlow, hhigh⟩ : 48 ≤ d.toNat ∧ d.toNat ≤ 57 := by
    simpa [Char.isDigit, UInt32.le_iff_toNat_le] using hdigit
  refine ⟨d, hd, hlow, hhigh, ?_⟩
  rw [UInt8.toNat_ofNat']
  omega

/-- The digits of a number are word bytes. -/
theorem isWordByte_toString {c : UInt8} {i : ℕ} (hc : c ∈ ascii (toString i)) :
    Dot.isWordByte c = true := by
  obtain ⟨d, -, hlow, hhigh, heq⟩ := exists_digit hc
  simp [Dot.isWordByte, UInt8.le_iff_toNat_le, heq, hlow, hhigh]

/-- The name of a node is a word. -/
theorem scan_nodeId (i : ℕ) :
    Dot.scan .between (nodeId i) = some ([], .inWord (nodeName i)) :=
  Dot.scan_append_of (show Dot.scan .between (ascii "  n") = some ([], .inWord [chr 'n']) by decide)
    (Dot.scan_inWord fun _ => isWordByte_toString)

/-- The attribute lists of the nodes are read token by token, the two names that are not fixed stay
inside a word or inside quotes. -/
theorem lexes_text {line : DotLine} (h : line.Plain) :
    Lexes line.text (line.tokens ++ [.punct 0x3b]) := by
  cases line with
  | node i path color =>
    obtain ⟨hquote, hslash⟩ := h
    have hopen : Dot.scan (.inWord (nodeName i)) (ascii " [label=\"") =
        some ([.word (nodeName i), .punct (chr '['), .word (ascii "label"), .punct (chr '=')],
          .inQuotes []) := rfl
    -- without a quote or a backslash, the path is between its quotes as it is
    have hpath : Dot.scan (.inQuotes []) path = some ([], .inQuotes path) :=
      Dot.scan_inQuotes fun c hc =>
        ⟨by rintro rfl; exact hquote hc, by rintro rfl; exact hslash hc⟩
    have hbetween : Dot.scan (.inQuotes path) (ascii "\", fillcolor=\"") =
        some ([.quoted path, .punct (chr ','), .word (ascii "fillcolor"), .punct (chr '=')],
          .inQuotes []) := rfl
    have hcolor : Dot.scan (.inQuotes []) color.text = some ([], .inQuotes color.text) := by
      cases color <;> decide
    have hclose : Dot.scan (.inQuotes color.text) (ascii "\"];\n") =
        some ([.quoted color.text, .punct (chr ']'), .punct 0x3b], .between) := rfl
    exact Dot.scan_append_of (Dot.scan_append_of (Dot.scan_append_of (Dot.scan_append_of
      (Dot.scan_append_of (scan_nodeId i) hopen) hpath) hbetween) hcolor) hclose
  | edge i target =>
    have harrow : Dot.scan (.inWord (nodeName i)) (ascii " -> n") =
        some ([.word (nodeName i), .arrow], .inWord [chr 'n']) := rfl
    have htarget : Dot.scan (.inWord [chr 'n']) (ascii (toString target)) =
        some ([], .inWord (nodeName target)) :=
      Dot.scan_inWord fun _ => isWordByte_toString
    have hclose : Dot.scan (.inWord (nodeName target)) (ascii ";\n") =
        some ([.word (nodeName target), .punct 0x3b], .between) := rfl
    exact Dot.scan_append_of (Dot.scan_append_of (Dot.scan_append_of
      (scan_nodeId i) harrow) htarget) hclose

/-! ### Reading -/

theorem punct_notMem_tokens (line : DotLine) : Token.punct 0x3b ∉ line.tokens := by
  cases line <;> simp [DotLine.tokens, chr]

theorem readStatement_tokens (line : DotLine) :
    Dot.readStatement line.tokens = some line.statement := by
  cases line <;> rfl

/-- The first statement of the text. -/
def rankdirTokens : List Token :=
  [.word (ascii "rankdir"), .punct (chr '='), .word (ascii "LR")]

/-- The statement for all nodes. -/
def nodeTokens : List Token :=
  [.word (ascii "node"), .punct (chr '['), .word (ascii "shape"), .punct (chr '='),
    .word (ascii "box"), .punct (chr ','), .word (ascii "style"), .punct (chr '='),
    .word (ascii "filled"), .punct (chr ','), .word (ascii "fontname"), .punct (chr '='),
    .quoted (ascii "Helvetica"), .punct (chr ']')]

theorem readStatement_rankdirTokens : Dot.readStatement ([] ++ rankdirTokens) =
    some (.assign (ascii "rankdir") (ascii "LR")) := rfl

theorem readStatement_nodeTokens : Dot.readStatement ([] ++ nodeTokens) =
    some (.attributes (ascii "node") [(ascii "shape", ascii "box"), (ascii "style", ascii "filled"),
      (ascii "fontname", ascii "Helvetica")]) := rfl

/-- The reader finds the graph that the text is meant to say. -/
theorem read_dotGraph
    (hplain : ∀ n ∈ ctx.graph.nodes, chr '"' ∉ n.path ∧ chr '\\' ∉ n.path) :
    Dot.read (emitGraph ctx disk) = some (dotGraph ctx disk) := by
  -- plain paths need no escape, so each line is lexed as it was meant
  have hlines : ∀ line ∈ dotLines ctx disk, line.Plain := by
    intro line hline
    obtain ⟨⟨⟨n, c⟩, i⟩, he, hline⟩ := List.mem_flatMap.mp hline
    have hn : n ∈ ctx.graph.nodes := (List.of_mem_zip (List.fst_mem_of_mem_zipIdx he)).1
    rcases List.mem_cons.mp hline with rfl | hline
    · exact hplain n hn
    · obtain ⟨v, -, rfl⟩ := List.mem_map.mp hline
      trivial
  have hgraph : Lexes (ascii "digraph catalyst_build \x7b\n  rankdir=LR;\n")
      ([.word (ascii "digraph"), .word (ascii "catalyst_build"), .punct 0x7b] ++
        (rankdirTokens ++ [.punct 0x3b])) := by
    unfold Lexes
    decide +kernel
  have hnode : Lexes (ascii "  node [shape=box, style=filled, fontname=\"Helvetica\"];\n")
      (nodeTokens ++ [.punct 0x3b]) := by
    unfold Lexes
    decide +kernel
  have hclose : Lexes (ascii "\x7d\n") [.punct 0x7d] := rfl
  have hlex := (((hgraph.append hnode).append (Lexes.flatMap fun line hline =>
    lexes_text (hlines line hline))).append hclose).lex_eq
  rw [← emitGraph_eq] at hlex
  -- between the braces: the attributes, then the statements of the nodes and edges
  have hread : Dot.readStatements [] (rankdirTokens ++ Token.punct 0x3b :: (nodeTokens ++
      Token.punct 0x3b ::
        (dotLines ctx disk).flatMap fun line => line.tokens ++ [Token.punct 0x3b])) =
      some (dotGraph ctx disk).statements := by
    rw [Dot.readStatements_append (by decide) readStatement_rankdirTokens,
      Dot.readStatements_append (by decide) readStatement_nodeTokens,
      Dot.readStatements_flatMap (fun line _ => punct_notMem_tokens line)
        fun line _ => readStatement_tokens line]
    rfl
  have hbraces := Dot.readGraph_append.trans
    (congrArg (Option.map (Dot.Graph.mk (ascii "catalyst_build"))) hread)
  simp only [List.append_assoc, List.cons_append, List.nil_append] at hlex hbraces
  rw [Dot.read, hlex, Option.bind_some]
  exact hbraces

/-! ### Nodes and edges -/

/-- A number is read back from its digits. -/
theorem ofDigitChars_toString (i : ℕ) :
    Nat.ofDigitChars 10 ((ascii (toString i)).map fun c => Char.ofNat c.toNat) 0 = i := by
  have hchars : (ascii (toString i)).map (fun c => Char.ofNat c.toNat) = Nat.toDigits 10 i := by
    rw [ascii, Nat.toString_eq_repr, Nat.toList_repr, List.map_map]
    refine (List.map_congr_left fun d hd => ?_).trans (List.map_id _)
    have hdigit := Nat.isDigit_of_mem_toDigits (by decide) (by decide) hd
    obtain ⟨hlow, hhigh⟩ : 48 ≤ d.toNat ∧ d.toNat ≤ 57 := by
      simpa [Char.isDigit, UInt32.le_iff_toNat_le] using hdigit
    rw [Function.comp_apply, UInt8.toNat_ofNat', Nat.mod_eq_of_lt (by omega), Char.ofNat_toNat]
    rfl
  rw [hchars, Nat.ofDigitChars_ten_toDigits]

theorem nodeName_injective : Function.Injective nodeName := by
  intro i j h
  rw [← ofDigitChars_toString i, (List.cons.inj h).2, ofDigitChars_toString]

theorem nodeName_ne_node (i : ℕ) : nodeName i ≠ ascii "node" := by
  intro h
  have hmem : chr 'o' ∈ ascii (toString i) := by
    rw [(List.cons.inj h).2]
    decide
  obtain ⟨d, -, -, hhigh, heq⟩ := exists_digit hmem
  exact absurd (heq ▸ hhigh) (by decide)

variable (ctx disk) in
/-- The grey nodes among those that were looked at. -/
theorem colors_foldl_lightGray (n : ℕ) :
    ∃ cs d, (List.range n).foldl (nextColor ctx) ([], .start ctx disk) = (cs, d) ∧
      cs.length = n ∧ ∀ v < n, cs[v]? = some .lightGray ↔ ctx.graph.stepOf v = none := by
  induction n with
  | zero => exact ⟨[], _, rfl, rfl, by simp⟩
  | succ n ih =>
    obtain ⟨cs, d, hfold, hlen, hcs⟩ := ih
    rw [List.range_succ, List.foldl_append, hfold]
    obtain ⟨c, d', hnext, hc⟩ : ∃ c d', nextColor ctx (cs, d) n = (cs ++ [c], d') ∧
        (c = .lightGray ↔ ctx.graph.stepOf n = none) := by
      cases hst : ctx.graph.stepOf n with
      | none => exact ⟨.lightGray, d, by simp [nextColor, hst], by simp⟩
      | some st =>
        refine ⟨_, _, by simp [nextColor, hst]; exact ⟨rfl, rfl⟩, ?_⟩
        split_ifs <;> simp
    refine ⟨cs ++ [c], d', hnext, by simp [hlen], fun v hv => ?_⟩
    rcases Nat.lt_succ_iff_lt_or_eq.mp hv with hlt | rfl
    · rw [List.getElem?_append_left (by omega)]
      exact hcs v hlt
    · rw [List.getElem?_append_right (by omega), hlen]
      simpa using hc

theorem length_colors : (colors ctx disk).length = ctx.graph.nodes.length := by
  obtain ⟨cs, d, hfold, hlen, -⟩ := colors_foldl_lightGray ctx disk
    ctx.graph.nodes.length
  rw [colors, hfold, hlen]

/-- The grey nodes are the source files. -/
theorem colors_eq_lightGray_iff {v : ℕ} (hv : v < ctx.graph.nodes.length) :
    (colors ctx disk)[v]? = some .lightGray ↔ ctx.graph.stepOf v = none := by
  obtain ⟨cs, d, hfold, -, hcs⟩ := colors_foldl_lightGray ctx disk
    ctx.graph.nodes.length
  rw [colors, hfold]
  exact hcs v hv

theorem node_mem_dotLines {v : ℕ} {path : Bytes} {c : Color} :
    .node v path c ∈ dotLines ctx disk ↔
      ∃ n, ctx.graph.nodes[v]? = some n ∧ n.path = path ∧ (colors ctx disk)[v]? = some c := by
  constructor
  · intro hmem
    obtain ⟨⟨⟨n, c'⟩, i⟩, he, hline⟩ := List.mem_flatMap.mp hmem
    obtain ⟨hn, hc⟩ := List.getElem?_zip_eq_some.mp (List.mk_mem_zipIdx_iff_getElem?.mp he)
    rcases List.mem_cons.mp hline with heq | hline
    · cases heq
      exact ⟨n, hn, rfl, hc⟩
    · obtain ⟨u, -, heq⟩ := List.mem_map.mp hline
      cases heq
  · rintro ⟨n, hn, rfl, hc⟩
    exact List.mem_flatMap.mpr ⟨((n, c), v), List.mk_mem_zipIdx_iff_getElem?.mpr
      (List.getElem?_zip_eq_some.mpr ⟨hn, hc⟩), List.mem_cons_self⟩

theorem edge_mem_dotLines {u v : ℕ} :
    .edge u v ∈ dotLines ctx disk ↔ ctx.graph.Edge u v := by
  constructor
  · intro hmem
    obtain ⟨⟨⟨n, c⟩, i⟩, he, hline⟩ := List.mem_flatMap.mp hmem
    obtain ⟨hn, -⟩ := List.getElem?_zip_eq_some.mp (List.mk_mem_zipIdx_iff_getElem?.mp he)
    rcases List.mem_cons.mp hline with heq | hline
    · cases heq
    · obtain ⟨w, hw, heq⟩ := List.mem_map.mp hline
      cases heq
      exact ⟨n, hn, hw⟩
  · rintro ⟨n, hn, hv⟩
    -- every node has a colour
    have hlt : u < (colors ctx disk).length := by
      rw [length_colors]
      exact (List.getElem?_eq_some_iff.mp hn).1
    exact List.mem_flatMap.mpr ⟨((n, (colors ctx disk)[u]), u),
      List.mk_mem_zipIdx_iff_getElem?.mpr
        (List.getElem?_zip_eq_some.mpr ⟨hn, List.getElem?_eq_getElem hlt⟩),
      List.mem_cons_of_mem _ (List.mem_map_of_mem hv)⟩

theorem mem_dotGraph_edge {a b : Bytes} : .edge a b ∈ (dotGraph ctx disk).statements ↔
    ∃ u v, ctx.graph.Edge u v ∧ a = nodeName u ∧ b = nodeName v := by
  rw [dotGraph, List.mem_cons, List.mem_cons, List.mem_map]
  constructor
  · rintro (h | h | ⟨_ | ⟨u, v⟩, hline, h⟩) <;> cases h
    exact ⟨u, v, edge_mem_dotLines.mp hline, rfl, rfl⟩
  · rintro ⟨u, v, hedge, rfl, rfl⟩
    exact .inr (.inr ⟨.edge u v, edge_mem_dotLines.mpr hedge, rfl⟩)

theorem mem_dotGraph_attributes {v : ℕ} {values : List (Bytes × Bytes)} :
    .attributes (nodeName v) values ∈ (dotGraph ctx disk).statements ↔
      ∃ n c, ctx.graph.nodes[v]? = some n ∧ (colors ctx disk)[v]? = some c ∧
        values = [(ascii "label", n.path), (ascii "fillcolor", c.text)] := by
  rw [dotGraph, List.mem_cons, List.mem_cons, List.mem_map]
  constructor
  · rintro (h | h | ⟨_ | _, hline, h⟩)
    · cases h
    · exact absurd (Statement.attributes.inj h).1 (nodeName_ne_node v)
    · obtain ⟨hname, rfl⟩ := Statement.attributes.inj h
      rw [nodeName_injective hname] at hline
      obtain ⟨n, hn, rfl, hc⟩ := node_mem_dotLines.mp hline
      exact ⟨n, _, hn, hc, rfl⟩
    · cases h
  · rintro ⟨n, c, hn, hc, rfl⟩
    exact .inr (.inr ⟨.node v n.path c, node_mem_dotLines.mpr ⟨n, hn, rfl, hc⟩, rfl⟩)

/-- A DOT reader finds the nodes of the build with their paths, its edges, and the steps that are
out of date in green, when no path has a quote or a backslash. -/
theorem read_emitGraph (hg : ctx.graph.Built)
    (hplain : ∀ n ∈ ctx.graph.nodes, chr '"' ∉ n.path ∧ chr '\\' ∉ n.path) :
    ∃ g, Dot.read (emitGraph ctx disk) = some g ∧
      (∀ a b, .edge a b ∈ g.statements ↔
        ∃ u v, ctx.graph.Edge u v ∧ a = nodeName u ∧ b = nodeName v) ∧
      ∀ v values, .attributes (nodeName v) values ∈ g.statements ↔
        ∃ (n : Node) (c : Color), ctx.graph.nodes[v]? = some n ∧
          values = [(ascii "label", n.path), (ascii "fillcolor", c.text)] ∧
          (c = .green ↔ Outdated ctx disk v) ∧
          (c = .lightGray ↔ ctx.graph.stepOf v = none) := by
  refine ⟨dotGraph ctx disk, read_dotGraph hplain, fun a b => mem_dotGraph_edge, fun v values =>
    mem_dotGraph_attributes.trans ?_⟩
  refine exists_congr fun n => exists_congr fun c => and_congr_right fun hn => ?_
  have hlt : v < ctx.graph.nodes.length := (List.getElem?_eq_some_iff.mp hn).1
  have hgreen : (colors ctx disk)[v]? = some .green ↔ Outdated ctx disk v :=
    colors_eq_green_iff hg.wellFormed v
  have hgray : (colors ctx disk)[v]? = some .lightGray ↔ ctx.graph.stepOf v = none :=
    colors_eq_lightGray_iff hlt
  -- the colour is one of three, the third is neither green nor grey
  obtain ⟨c', hc'⟩ : ∃ c', (colors ctx disk)[v]? = some c' :=
    ⟨_, List.getElem?_eq_getElem (length_colors.symm ▸ hlt)⟩
  rw [hc', Option.some_inj] at hgreen hgray
  rw [hc', Option.some_inj, ← hgreen, ← hgray, and_comm]
  refine and_congr_right fun _ => ⟨?_, ?_⟩
  · rintro rfl
    exact ⟨Iff.rfl, Iff.rfl⟩
  · rintro ⟨hgreen, hgray⟩
    cases c <;> cases c' <;> simp_all

/-- The link step `a` of `twice` is read back with its input `s` and in green. -/
theorem read_emitGraph_twice : ∃ g, Dot.read (emitGraph twiceContext twiceDisk) = some g ∧
    .edge (nodeName 1) (nodeName 0) ∈ g.statements ∧
    .attributes (nodeName 0) [(ascii "label", ascii "a"), (ascii "fillcolor", ascii "green")] ∈
      g.statements := by
  obtain ⟨g, hread, hedge, hnode⟩ :=
    @read_emitGraph twiceContext twiceDisk built_twice (by decide +kernel)
  refine ⟨g, hread, (hedge _ _).mpr ⟨1, 0, BuildGraph.edge_iff.mpr (by decide +kernel), rfl, rfl⟩,
    (hnode _ _).mpr ⟨_, .green, rfl, rfl, ?_, by decide +kernel⟩⟩
  refine iff_of_true rfl ((colors_eq_green_iff built_twice.wellFormed 0).mp ?_)
  decide +kernel

end Text

end Cob
