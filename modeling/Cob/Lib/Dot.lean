import Mathlib.Data.List.Basic

/-!
# DOT texts

A reader for a part of the DOT language over bytes: directed graphs whose statements set an
attribute, give attributes to a node, or add an edge, each with a semicolon behind it. In a quoted
name a backslash escapes a quote or a line end, and otherwise stands for itself.

* `scan` — the lexer, a machine that takes one byte after the other;
* `read` — the graph of a text;
* `Lexes` — a text gives these tokens wherever it stands between two tokens, with a rule for texts
  behind each other;
* `readStatements_append` — reading a statement.
-/

namespace Dot

/-- A text. -/
abbrev Text := List UInt8

inductive Token where
  /-- a name without quotes -/
  | word (s : Text)
  | quoted (s : Text)
  /-- `->` -/
  | arrow
  /-- a bracket, a brace, an equals sign, a comma or a semicolon -/
  | punct (c : UInt8)
  deriving DecidableEq

/-- What the lexer is in the middle of. -/
inductive Mode where
  | between
  | inWord (s : Text)
  | inQuotes (s : Text)
  /-- behind a backslash in quotes -/
  | escaped (s : Text)
  /-- behind a dash -/
  | dash
  deriving DecidableEq

/-! ### The lexer -/

/-- A blank between tokens. -/
def isBlank (c : UInt8) : Bool := c = 0x20 || c = 0x09 || c = 0x0a || c = 0x0d

/-- `{`, `}`, `[`, `]`, `=`, `,` and `;`. -/
def isPunct (c : UInt8) : Bool :=
  c = 0x7b || c = 0x7d || c = 0x5b || c = 0x5d || c = 0x3d || c = 0x2c || c = 0x3b

/-- Letters, digits and the underscore. -/
def isWordByte (c : UInt8) : Bool :=
  (0x30 ≤ c && c ≤ 0x39) || (0x41 ≤ c && c ≤ 0x5a) || (0x61 ≤ c && c ≤ 0x7a) || c = 0x5f

/-- A byte outside of names, behind the tokens `done`. -/
def stepBetween (done : List Token) (c : UInt8) : Option (List Token × Mode) :=
  if isBlank c then some (done, .between)
  else if isPunct c then some (done ++ [.punct c], .between)
  else if c = 0x22 then some (done, .inQuotes [])
  else if c = 0x2d then some (done, .dash)
  else if isWordByte c then some (done, .inWord [c])
  else none

/-- One byte: the tokens it ends, and what comes next. -/
def step (m : Mode) (c : UInt8) : Option (List Token × Mode) :=
  match m with
  | .between => stepBetween [] c
  | .inWord s => if isWordByte c then some ([], .inWord (s ++ [c])) else stepBetween [.word s] c
  | .inQuotes s =>
    if c = 0x22 then some ([.quoted s], .between)
    else if c = 0x5c then some ([], .escaped s)
    else some ([], .inQuotes (s ++ [c]))
  | .escaped s =>
    if c = 0x22 then some ([], .inQuotes (s ++ [c]))
    else if c = 0x0a then some ([], .inQuotes s)
    else some ([], .inQuotes (s ++ [0x5c, c]))
  | .dash => if c = 0x3e then some ([.arrow], .between) else none

/-- The tokens of a text, and what the lexer is in the middle of at its end. -/
def scan : Mode → Text → Option (List Token × Mode)
  | m, [] => some ([], m)
  | m, c :: s =>
    (step m c).bind fun p => (scan p.2 s).map fun q => (p.1 ++ q.1, q.2)

/-- The tokens of a whole text. -/
def lex (s : Text) : Option (List Token) :=
  match scan .between s with
  | some (tokens, .between) => some tokens
  | some (tokens, .inWord s) => some (tokens ++ [.word s])
  | _ => none

/-! ### The parser -/

/-- A statement. -/
inductive Statement where
  /-- `name=value` -/
  | assign (name value : Text)
  /-- `name [name=value, …]` -/
  | attributes (name : Text) (values : List (Text × Text))
  /-- `source -> target` -/
  | edge (source target : Text)
  deriving DecidableEq

/-- A directed graph. -/
structure Graph where
  name : Text
  statements : List Statement
  deriving DecidableEq

/-- A name, with or without quotes. -/
def Token.name : Token → Option Text
  | .word s => some s
  | .quoted s => some s
  | _ => none

/-- The attributes up to the closing bracket. -/
def readAttributes : List Token → Option (List (Text × Text))
  | .word key :: .punct c :: value :: .punct c' :: rest =>
    if c = 0x3d then
      value.name.bind fun value =>
        if c' = 0x5d then (if rest = [] then some [(key, value)] else none)
        else if c' = 0x2c then (readAttributes rest).map ((key, value) :: ·)
        else none
    else none
  | _ => none

/-- A statement without its semicolon. -/
def readStatement : List Token → Option Statement
  | [.word source, .arrow, .word target] => some (.edge source target)
  | .word name :: .punct c :: rest =>
    if c = 0x5b then (readAttributes rest).map (.attributes name)
    else if c = 0x3d then
      match rest with
      | [value] => value.name.map (.assign name)
      | _ => none
    else none
  | _ => none

/-- The statements of some tokens, the first of which begins with `begun`. -/
def readStatements (begun : List Token) : List Token → Option (List Statement)
  | [] => if begun = [] then some [] else none
  | t :: rest =>
    if t = .punct 0x3b then
      (readStatement begun).bind fun statement => (readStatements [] rest).map (statement :: ·)
    else readStatements (begun ++ [t]) rest

/-- The graph of some tokens. -/
def readGraph : List Token → Option Graph
  | .word keyword :: .word name :: .punct c :: rest =>
    -- `digraph`
    if keyword = [0x64, 0x69, 0x67, 0x72, 0x61, 0x70, 0x68] ∧ c = 0x7b ∧
        rest.getLast? = some (.punct 0x7d) then
      (readStatements [] rest.dropLast).map (⟨name, ·⟩)
    else none
  | _ => none

/-- The graph of a text. -/
def read (s : Text) : Option Graph := (lex s).bind readGraph

/-! ### Rules -/

section Rules

variable {m m' : Mode} {s t w : Text} {ts us : List Token}

/-- The lexer goes on where it is. -/
theorem scan_append : scan m (s ++ t) =
    (scan m s).bind fun p => (scan p.2 t).map fun q => (p.1 ++ q.1, q.2) := by
  induction s generalizing m with
  | nil => simp [scan]
  | cons c s ih =>
    rw [List.cons_append, scan, scan]
    cases step m c with
    | none => rfl
    | some p =>
      simp only [Option.bind_some, ih]
      cases scan p.2 s with
      | none => rfl
      | some q =>
        simp only [Option.bind_some, Option.map_some, Option.map_map]
        congr 1
        ext1 r
        simp [List.append_assoc]

/-- Parts of a text behind each other. -/
theorem scan_append_of (hs : scan m s = some (ts, m')) {m'' : Mode}
    (ht : scan m' t = some (us, m'')) : scan m (s ++ t) = some (ts ++ us, m'') := by
  rw [scan_append, hs, Option.bind_some, ht, Option.map_some]

/-- Inside a word. -/
theorem scan_inWord (hw : ∀ c ∈ w, isWordByte c = true) :
    scan (.inWord s) w = some ([], .inWord (s ++ w)) := by
  induction w generalizing s with
  | nil => rw [scan, List.append_nil]
  | cons c w ih =>
    have hc := hw c List.mem_cons_self
    rw [scan, step, if_pos hc, Option.bind_some, ih fun c h => hw c (List.mem_cons_of_mem _ h)]
    simp

/-- Inside quotes, up to the next quote or backslash. -/
theorem scan_inQuotes (hw : ∀ c ∈ w, c ≠ 0x22 ∧ c ≠ 0x5c) :
    scan (.inQuotes s) w = some ([], .inQuotes (s ++ w)) := by
  induction w generalizing s with
  | nil => rw [scan, List.append_nil]
  | cons c w ih =>
    obtain ⟨hquote, hslash⟩ := hw c List.mem_cons_self
    rw [scan, step, if_neg hquote, if_neg hslash, Option.bind_some,
      ih fun c h => hw c (List.mem_cons_of_mem _ h)]
    simp

/-- The text gives the tokens, between two tokens. -/
def Lexes (s : Text) (ts : List Token) : Prop := scan .between s = some (ts, .between)

theorem Lexes.append (hs : Lexes s ts) (ht : Lexes t us) : Lexes (s ++ t) (ts ++ us) :=
  scan_append_of hs ht

theorem Lexes.flatMap {α : Type} {l : List α} {text : α → Text} {tokens : α → List Token}
    (h : ∀ a ∈ l, Lexes (text a) (tokens a)) : Lexes (l.flatMap text) (l.flatMap tokens) := by
  induction l with
  | nil => rfl
  | cons a l ih =>
    rw [List.flatMap_cons, List.flatMap_cons]
    exact (h a List.mem_cons_self).append (ih fun b hb => h b (List.mem_cons_of_mem _ hb))

theorem Lexes.lex_eq (h : Lexes s ts) : lex s = some ts := by rw [lex, h]

/-- A statement is read up to its semicolon. -/
theorem readStatements_append {begun tokens rest : List Token} {statement : Statement}
    (hno : Token.punct 0x3b ∉ tokens) (hread : readStatement (begun ++ tokens) = some statement) :
    readStatements begun (tokens ++ .punct 0x3b :: rest) =
      (readStatements [] rest).map (statement :: ·) := by
  induction tokens generalizing begun with
  | nil =>
    rw [List.append_nil] at hread
    rw [List.nil_append, readStatements, if_pos rfl, hread, Option.bind_some]
  | cons t tokens ih =>
    have hne : t ≠ .punct 0x3b := fun heq => hno (heq ▸ List.mem_cons_self)
    rw [List.cons_append, readStatements, if_neg hne]
    exact ih (fun hmem => hno (List.mem_cons_of_mem _ hmem)) (by rwa [List.append_assoc])

/-- The tokens of a list of statements. -/
theorem readStatements_flatMap {α : Type} {l : List α} {tokens : α → List Token}
    {statement : α → Statement} (hno : ∀ a ∈ l, Token.punct 0x3b ∉ tokens a)
    (hread : ∀ a ∈ l, readStatement (tokens a) = some (statement a)) :
    readStatements [] (l.flatMap fun a => tokens a ++ [.punct 0x3b]) =
      some (l.map statement) := by
  induction l with
  | nil => rfl
  | cons a l ih =>
    rw [List.flatMap_cons, List.append_assoc, List.singleton_append,
      readStatements_append (hno a List.mem_cons_self) (hread a List.mem_cons_self),
      ih (fun b hb => hno b (List.mem_cons_of_mem _ hb))
        (fun b hb => hread b (List.mem_cons_of_mem _ hb))]
    rfl

/-- A graph is read between its braces. -/
theorem readGraph_append {name : Text} {tokens : List Token} :
    readGraph (.word [0x64, 0x69, 0x67, 0x72, 0x61, 0x70, 0x68] :: .word name :: .punct 0x7b ::
      (tokens ++ [.punct 0x7d])) = (readStatements [] tokens).map (⟨name, ·⟩) := by
  rw [readGraph, if_pos ⟨rfl, rfl, List.getLast?_concat⟩, List.dropLast_concat]

end Rules

end Dot
