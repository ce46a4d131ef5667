import Cob.Graph.Depfile
import Mathlib.Data.List.TakeWhile

/-!
# Quoting in dependency files

How compilers write prerequisites into `.d` files, and that `parseDepfile` reads them back. The
tokenizer and the decoder are two passes over the same backslash runs; each is shown to undo
`quote`, the run of backslashes just before the current byte being what ties them to it.

The module introduces:

* `quote` — Make quoting of a path;
* `IsPath`, `IsSeparator`, `Joined` — the rules that compilers write;
* `unquote_quote`, `escaped_quote`, `extractToken_quote` — the passes over one quoted path.
-/

namespace Cob

namespace Depfile

/-- Make quoting of the rest of a path, behind a run of backslashes: a blank or a tab gets one
backslash after the run before it is doubled, a hash gets one backslash, a dollar is doubled. -/
def quote (run : ℕ) : Bytes → Bytes
  | [] => []
  | c :: p =>
    if c = chr '\\' then c :: quote (run + 1) p
    else if c = chr ' ' ∨ c = chr '\t' then
      List.replicate run (chr '\\') ++ chr '\\' :: c :: quote 0 p
    else if c = chr '#' then chr '\\' :: c :: quote 0 p
    else if c = chr '$' then c :: c :: quote 0 p
    else c :: quote 0 p

/-- A byte of a path: a tab, a space, or what is behind it. -/
def isPathByte (c : UInt8) : Bool := c = chr '\t' || chr ' ' ≤ c

/-- A path that Make quoting can express: not empty, without control characters but tabs, and not
ending in a backslash. -/
structure IsPath (p : Bytes) : Prop where
  ne_nil : p ≠ []
  bytes : ∀ c ∈ p, isPathByte c
  getLast : p.getLast? ≠ some (chr '\\')

/-- The pieces of separators: blanks, tabs and continuations. -/
def separatorPieces : List Bytes := [ascii " ", ascii "\t", ascii "\\\n", ascii "\\\r\n"]

/-- A sequence of blanks, tabs and continuations. -/
def IsSeparator (s : Bytes) : Prop :=
  ∃ pieces : List Bytes, (∀ piece ∈ pieces, piece ∈ separatorPieces) ∧ s = pieces.flatten

/-- The text is that of the quoted paths with separators between them. -/
inductive Joined : List Bytes → Bytes → Prop
  | nil : Joined [] []
  | single (p : Bytes) : Joined [p] (quote 0 p)
  | cons {p q : Bytes} {paths : List Bytes} {sep s : Bytes} :
      IsSeparator sep → sep ≠ [] → Joined (q :: paths) s →
        Joined (p :: q :: paths) (quote 0 p ++ (sep ++ s))

/-- A byte of a plain target list: a letter, a digit, `_`, `-`, `.`, `/`, or a space between
names. -/
def isTargetByte (c : UInt8) : Bool :=
  (chr 'a' ≤ c && c ≤ chr 'z') || (chr 'A' ≤ c && c ≤ chr 'Z') || (chr '0' ≤ c && c ≤ chr '9') ||
    c = chr '_' || c = chr '-' || c = chr '.' || c = chr '/' || c = chr ' '

/-- What may follow the last prerequisite of a rule: the end of the file, or a line end with any
text behind it. -/
def IsRuleEnd (s : Bytes) : Prop :=
  s = [] ∨ ∃ rest, s = ascii "\n" ++ rest ∨ s = ascii "\r\n" ++ rest

/-! ### Decoding -/

section Decode

theorem unquote_slash (run : ℕ) (s : Bytes) :
    unquote run (chr '\\' :: s) = unquote (run + 1) s := by
  rw [unquote.eq_def]
  rfl

theorem unquote_hash (run : ℕ) (s : Bytes) :
    unquote (run + 1) (chr '#' :: s) =
      List.replicate run (chr '\\') ++ chr '#' :: unquote 0 s := by
  rw [unquote.eq_def]
  rfl

theorem unquote_blank {run : ℕ} {c : UInt8} (hrun : 0 < run) (hc : c = chr ' ' ∨ c = chr '\t')
    (s : Bytes) :
    unquote run (c :: s) = List.replicate (run / 2) (chr '\\') ++ c :: unquote 0 s := by
  have hne : c ≠ chr '\\' ∧ c ≠ chr '#' := by rcases hc with rfl | rfl <;> decide
  rw [unquote.eq_def]
  simp only [hne.1, hne.2, hrun, hc, and_false, if_false, and_self, if_true]

theorem unquote_dollar (run : ℕ) (s : Bytes) :
    unquote run (chr '$' :: chr '$' :: s) =
      List.replicate run (chr '\\') ++ chr '$' :: unquote 0 s := by
  have hne : chr '$' ≠ chr '\\' ∧ chr '$' ≠ chr '#' ∧ chr '$' ≠ chr ' ' ∧ chr '$' ≠ chr '\t' := by
    decide
  rw [unquote.eq_def]
  simp only [hne.1, hne.2.1, hne.2.2.1, hne.2.2.2, or_self, and_false, and_self, if_false, if_true]

/-- A byte that quoting leaves alone. -/
def isPlain (c : UInt8) : Bool :=
  c ≠ chr '\\' ∧ ¬(c = chr ' ' ∨ c = chr '\t') ∧ c ≠ chr '#' ∧ c ≠ chr '$'

theorem unquote_plain (run : ℕ) {c : UInt8} (hc : isPlain c) (s : Bytes) :
    unquote run (c :: s) = List.replicate run (chr '\\') ++ c :: unquote 0 s := by
  obtain ⟨hslash, hblank, hhash, hdollar⟩ := of_decide_eq_true hc
  rw [unquote.eq_def]
  simp only [hslash, hblank, hhash, hdollar, and_false, if_false, false_and]
  cases s with
  | nil => rfl
  | cons d r => rfl

/-- A run of backslashes is collected. -/
theorem unquote_replicate (run k : ℕ) (s : Bytes) :
    unquote run (List.replicate k (chr '\\') ++ s) = unquote (run + k) s := by
  induction k generalizing run with
  | zero => rfl
  | succ k ih =>
    rw [List.replicate_succ, List.cons_append, unquote_slash, ih]
    congr 1
    omega

/-! The cases of quoting, one for each kind of byte. -/

theorem quote_slash (run : ℕ) (p : Bytes) :
    quote run (chr '\\' :: p) = chr '\\' :: quote (run + 1) p := by
  rw [quote, if_pos rfl]

theorem quote_blank {c : UInt8} (hc : c = chr ' ' ∨ c = chr '\t') (run : ℕ) (p : Bytes) :
    quote run (c :: p) = List.replicate run (chr '\\') ++ chr '\\' :: c :: quote 0 p := by
  have hne : c ≠ chr '\\' := by rcases hc with rfl | rfl <;> decide
  rw [quote, if_neg hne, if_pos hc]

theorem quote_hash (run : ℕ) (p : Bytes) :
    quote run (chr '#' :: p) = chr '\\' :: chr '#' :: quote 0 p := by
  rw [quote]
  rfl

theorem quote_dollar (run : ℕ) (p : Bytes) :
    quote run (chr '$' :: p) = chr '$' :: chr '$' :: quote 0 p := by
  rw [quote]
  rfl

theorem quote_plain (run : ℕ) {c : UInt8} (hc : isPlain c) (p : Bytes) :
    quote run (c :: p) = c :: quote 0 p := by
  obtain ⟨hslash, hblank, hhash, hdollar⟩ := of_decide_eq_true hc
  rw [quote, if_neg hslash, if_neg hblank, if_neg hhash, if_neg hdollar]

/-- The kinds of bytes. -/
theorem byte_cases (c : UInt8) : c = chr '\\' ∨ (c = chr ' ' ∨ c = chr '\t') ∨ c = chr '#' ∨
    c = chr '$' ∨ isPlain c := by
  simp only [isPlain, decide_eq_true_eq]
  tauto

/-- Decoding undoes quoting; `run` backslashes before the path are still to be written. -/
theorem unquote_quote (run : ℕ) (p : Bytes) :
    unquote run (quote run p) = List.replicate run (chr '\\') ++ p := by
  induction p generalizing run with
  | nil => simp [quote, unquote]
  | cons c p ih =>
    rcases byte_cases c with rfl | hblank | rfl | rfl | hplain
    · rw [quote_slash, unquote_slash, ih, List.replicate_succ', List.append_assoc]
      rfl
    · -- the run doubled and the escape make an odd number of backslashes
      have hhalf : (run + run + 1) / 2 = run := by omega
      rw [quote_blank hblank, unquote_replicate, unquote_slash, unquote_blank (by omega) hblank,
        hhalf, ih]
      rfl
    · rw [quote_hash, unquote_slash, unquote_hash, ih]
      rfl
    · rw [quote_dollar, unquote_dollar, ih]
      rfl
    · rw [quote_plain run hplain, unquote_plain run hplain, ih]
      rfl

/-- A token without backslashes and dollars is not changed by decoding. -/
theorem unquote_of_plain {t : Bytes} (h : ∀ c ∈ t, c ≠ chr '\\' ∧ c ≠ chr '$') :
    unquote 0 t = t := by
  induction t with
  | nil => rfl
  | cons c t ih =>
    obtain ⟨hslash, hdollar⟩ := h c List.mem_cons_self
    have hrest := ih fun d hd => h d (List.mem_cons_of_mem _ hd)
    rw [unquote.eq_def]
    simp only [hslash, hdollar, lt_self_iff_false, false_and, if_false, List.replicate_zero,
      List.nil_append]
    cases t with
    | nil => rfl
    | cons d r => exact congrArg (c :: ·) hrest

/-- The shortcuts of the decoder are no exceptions to its loop. -/
theorem decodeDepfileToken_eq {t : Bytes} {needsDecode : Bool}
    (h : needsDecode = false → ∀ c ∈ t, c ≠ chr '\\' ∧ c ≠ chr '$') :
    decodeDepfileToken t needsDecode = unquote 0 t := by
  unfold decodeDepfileToken
  split_ifs with hskip
  · refine (unquote_of_plain ?_).symm
    rcases Bool.or_eq_true_iff.mp hskip with hno | hplain
    · exact h (by simpa using hno)
    · intro c hc
      simp only [Bool.not_eq_true', List.any_eq_false, Bool.or_eq_true, decide_eq_true_eq] at hplain
      exact not_or.mp (hplain c hc)
  · rfl

end Decode

/-! ### Tokens -/

section Tokens

/-- Where a token ends: at the end, at a blank or a control character, or at a continuation. -/
def Stops (s : Bytes) : Prop :=
  s = [] ∨ (∃ c rest, s = c :: rest ∧ c ≤ chr ' ') ∨
    ∃ d rest, s = chr '\\' :: d :: rest ∧ (d = chr '\n' ∨ d = chr '\r')

/-- The bytes of paths, none of which ends a line. -/
theorem ne_of_isPathByte {c : UInt8} (h : isPathByte c) : c ≠ chr '\n' ∧ c ≠ chr '\r' := by
  constructor <;> rintro rfl <;> revert h <;> decide

/-- Quoting does not begin a line. -/
theorem head_quote (run : ℕ) {p : Bytes} (hp : p ≠ []) (hbytes : ∀ c ∈ p, isPathByte c) :
    ∃ d q, quote run p = d :: q ∧ d ≠ chr '\n' ∧ d ≠ chr '\r' := by
  have hslash : chr '\\' ≠ chr '\n' ∧ chr '\\' ≠ chr '\r' := by decide
  obtain ⟨c, p, rfl⟩ := List.exists_cons_of_ne_nil hp
  have hc := ne_of_isPathByte (hbytes c List.mem_cons_self)
  rcases byte_cases c with rfl | hblank | rfl | rfl | hplain
  · exact ⟨_, _, quote_slash run p, hslash⟩
  · rw [quote_blank hblank]
    cases run with
    | zero => exact ⟨_, _, rfl, hslash⟩
    | succ run => exact ⟨_, _, rfl, hslash⟩
  · exact ⟨_, _, quote_hash run p, hslash⟩
  · exact ⟨_, _, quote_dollar run p, hc⟩
  · exact ⟨_, _, quote_plain run hplain p, hc⟩

/-- A backslash before a byte of a token is part of the token. -/
theorem escaped_slash (run : ℕ) {d : UInt8} (hd : d ≠ chr '\n' ∧ d ≠ chr '\r') (s : Bytes) :
    escaped run (chr '\\' :: d :: s) =
      (escaped (run + 1) (d :: s)).map (chr '\\' :: ·) id := by
  rw [escaped.eq_def]
  simp [hd.1, hd.2]

/-- Scanning a run of backslashes that no line end follows. -/
theorem escaped_replicate (run k : ℕ) {d : UInt8} (hd : d ≠ chr '\n' ∧ d ≠ chr '\r') (s : Bytes) :
    escaped run (List.replicate k (chr '\\') ++ d :: s) =
      (escaped (run + k) (d :: s)).map (List.replicate k (chr '\\') ++ ·) id := by
  induction k generalizing run with
  | zero => rfl
  | succ k ih =>
    have hslash : chr '\\' ≠ chr '\n' ∧ chr '\\' ≠ chr '\r' := by decide
    have hstep : escaped run (chr '\\' :: (List.replicate k (chr '\\') ++ d :: s)) =
        (escaped (run + 1) (List.replicate k (chr '\\') ++ d :: s)).map (chr '\\' :: ·) id := by
      cases k with
      | zero => exact escaped_slash run hd s
      | succ k => exact escaped_slash run hslash _
    have hrun : run + 1 + k = run + (k + 1) := by omega
    rw [List.replicate_succ, List.cons_append, hstep, ih, hrun]
    rfl

/-- A plain byte of a path is behind the space. -/
theorem not_le_space {c : UInt8} (hplain : isPlain c) (hbyte : isPathByte c) : ¬ c ≤ chr ' ' := by
  obtain ⟨-, hblank, -, -⟩ := of_decide_eq_true hplain
  obtain ⟨hspace, htab⟩ := not_or.mp hblank
  rcases Bool.or_eq_true_iff.mp hbyte with htab' | hle
  · exact absurd (of_decide_eq_true htab') htab
  · exact fun hge => hspace (le_antisymm hge (of_decide_eq_true hle))

/-- A hash behind a backslash is part of the token. -/
theorem escaped_hash (run : ℕ) (s : Bytes) :
    escaped (run + 1) (chr '#' :: s) = (escaped 0 s).map (chr '#' :: ·) id := by
  have hne : chr '#' ≠ chr '\\' ∧ chr '#' ≠ chr '\n' ∧ chr '#' ≠ chr '\r' := by decide
  rw [escaped.eq_def]
  simp [hne.1, hne.2.1, hne.2.2]

/-- So is a blank behind an odd run of backslashes. -/
theorem escaped_blank {run : ℕ} {c : UInt8} (hc : c = chr ' ' ∨ c = chr '\t') (hodd : run % 2 = 1)
    (s : Bytes) : escaped run (c :: s) = (escaped 0 s).map (c :: ·) id := by
  have hne : c ≠ chr '\\' ∧ c ≠ chr '\n' ∧ c ≠ chr '\r' := by rcases hc with rfl | rfl <;> decide
  have hpos : 0 < run := by omega
  rw [escaped.eq_def]
  simp [hne.1, hne.2.1, hne.2.2, hpos, hodd, hc]

/-- So is any byte that needs no backslash. -/
theorem escaped_plain (run : ℕ) {c : UInt8} (hslash : c ≠ chr '\\') (hhash : c ≠ chr '#')
    (hle : ¬ c ≤ chr ' ') (s : Bytes) : escaped run (c :: s) = (escaped 0 s).map (c :: ·) id := by
  have hne : ∀ d, d ≤ chr ' ' → c ≠ d := by
    rintro d hd rfl
    exact hle hd
  have hline : c ≠ chr '\n' ∧ c ≠ chr '\r' := ⟨hne _ (by decide), hne _ (by decide)⟩
  have hblank : c ≠ chr ' ' ∧ c ≠ chr '\t' := ⟨hne _ (by decide), hne _ (by decide)⟩
  rw [escaped.eq_def]
  simp [hslash, hhash, hle, hline.1, hline.2, hblank.1, hblank.2]

/-- Where a token ends, nothing more is taken. -/
theorem escaped_of_stops {s : Bytes} (h : Stops s) : escaped 0 s = ([], s) := by
  rcases h with rfl | ⟨c, rest, rfl, hle⟩ | ⟨d, rest, rfl, hd⟩
  · rfl
  · have hslash : c ≠ chr '\\' := by
      rintro rfl
      exact absurd hle (by decide)
    rw [escaped.eq_def]
    simp [hslash, hle]
  · rw [escaped.eq_def]
    simp [hd]

/-- The scan of the tokenizer takes a quoted path, behind a run of backslashes, as a whole. -/
theorem escaped_quote {run : ℕ} {p s : Bytes} (hbytes : ∀ c ∈ p, isPathByte c)
    (hlast : p.getLast? ≠ some (chr '\\')) (hrun : p = [] → run = 0) (hs : Stops s) :
    escaped run (quote run p ++ s) = (quote run p, s) := by
  induction p generalizing run with
  | nil =>
    obtain rfl := hrun rfl
    exact escaped_of_stops hs
  | cons c p ih =>
    have hrest : ∀ d ∈ p, isPathByte d := fun d hd => hbytes d (List.mem_cons_of_mem _ hd)
    have hlast' : p.getLast? ≠ some (chr '\\') := by
      cases p with
      | nil => simp
      | cons d p => simpa using hlast
    have ih' : escaped 0 (quote 0 p ++ s) = (quote 0 p, s) := ih hrest hlast' fun _ => rfl
    rcases byte_cases c with rfl | hblank | rfl | rfl | hplain
    · -- the path does not end here, so another byte follows the backslash
      have hne : p ≠ [] := by
        rintro rfl
        simp at hlast
      obtain ⟨d, q, hq, hd⟩ := head_quote (run + 1) hne hrest
      rw [quote_slash, List.cons_append, hq, List.cons_append, escaped_slash run hd,
        ← List.cons_append, ← hq, ih hrest hlast' fun h => absurd h hne]
      rfl
    · have hslash : chr '\\' ≠ chr '\n' ∧ chr '\\' ≠ chr '\r' := by decide
      have hc := ne_of_isPathByte (hbytes c List.mem_cons_self)
      rw [quote_blank hblank, List.append_assoc, List.cons_append, List.cons_append,
        escaped_replicate run run hslash, escaped_slash _ hc, escaped_blank hblank (by omega), ih']
      rfl
    · have hc := ne_of_isPathByte (hbytes (chr '#') List.mem_cons_self)
      rw [quote_hash, List.cons_append, List.cons_append, escaped_slash run hc, escaped_hash, ih']
      rfl
    · have hkeep : ∀ (run : ℕ) (s : Bytes),
          escaped run (chr '$' :: s) = (escaped 0 s).map (chr '$' :: ·) id := fun run s =>
        escaped_plain run (by decide) (by decide) (by decide) s
      rw [quote_dollar, List.cons_append, List.cons_append, hkeep, hkeep, ih']
      rfl
    · obtain ⟨hslash, -, hhash, -⟩ := of_decide_eq_true hplain
      have hle := not_le_space hplain (hbytes c List.mem_cons_self)
      rw [quote_plain run hplain, List.cons_append, escaped_plain run hslash hhash hle, ih']
      rfl

/-- A byte before the first backslash is taken. -/
theorem extractToken_cons {c : UInt8} (hc : !isSpecial c || c = chr '$') (s : Bytes) :
    extractToken (c :: s) =
      (c :: (extractToken s).1, (extractToken s).2.1 || c = chr '$', (extractToken s).2.2) := by
  simp only [extractToken, List.takeWhile_cons, hc, if_true, List.length_cons, List.drop_succ_cons]
  split_ifs
  · simp
  · by_cases hdollar : c = chr '$'
    · simp [hdollar]
    · simp [hdollar, Ne.symm hdollar]

/-- From the first backslash on, the second half of the tokenizer takes over. -/
theorem extractToken_slash (s : Bytes) : extractToken (chr '\\' :: s) =
    ((escaped 0 (chr '\\' :: s)).1, true, (escaped 0 (chr '\\' :: s)).2) := by
  have hspecial : (!isSpecial (chr '\\') || decide (chr '\\' = chr '$')) = false := by decide
  simp [extractToken, hspecial]

/-- Where a token ends, there is none. -/
theorem extractToken_of_stops {s : Bytes} (h : Stops s) :
    ∃ needsDecode, extractToken s = ([], needsDecode, s) := by
  rcases h with rfl | ⟨c, rest, rfl, hle⟩ | ⟨d, rest, rfl, hd⟩
  · exact ⟨false, rfl⟩
  · have hslash : c ≠ chr '\\' := by
      rintro rfl
      exact absurd hle (by decide)
    have hdollar : c ≠ chr '$' := by
      rintro rfl
      exact absurd hle (by decide)
    have hspecial : (!isSpecial c || decide (c = chr '$')) = false := by
      simp [isSpecial, hle, hdollar]
    exact ⟨false, by simp [extractToken, hspecial, hslash]⟩
  · refine ⟨true, ?_⟩
    rw [extractToken_slash, escaped_of_stops (.inr (.inr ⟨d, rest, rfl, hd⟩))]

/-- A token that is not marked for decoding has neither backslashes nor dollars. -/
theorem plain_of_extractToken {s t rest : Bytes} (h : extractToken s = (t, false, rest)) :
    ∀ c ∈ t, c ≠ chr '\\' ∧ c ≠ chr '$' := by
  simp only [extractToken] at h
  split_ifs at h with hslash
  · simp at h
  · obtain ⟨rfl, hdollar, -⟩ := by simpa using h
    intro c hc
    have hkeep := List.mem_takeWhile_imp hc
    have hne : c ≠ chr '$' := by
      rintro rfl
      exact absurd hc (by simpa using hdollar)
    refine ⟨?_, hne⟩
    rintro rfl
    exact absurd hkeep (by decide)

/-- The tokenizer takes a quoted path as a whole. -/
theorem extractToken_quote {p s : Bytes} (hbytes : ∀ c ∈ p, isPathByte c)
    (hlast : p.getLast? ≠ some (chr '\\')) (hs : Stops s) :
    ∃ needsDecode, extractToken (quote 0 p ++ s) = (quote 0 p, needsDecode, s) := by
  induction p with
  | nil => exact extractToken_of_stops hs
  | cons c p ih =>
    have hslashes : (quote 0 (c :: p)).head? = some (chr '\\') →
        ∃ needsDecode, extractToken (quote 0 (c :: p) ++ s) =
          (quote 0 (c :: p), needsDecode, s) := by
      -- the token begins with a backslash
      intro hhead
      have hescaped : escaped 0 (quote 0 (c :: p) ++ s) = (quote 0 (c :: p), s) :=
        escaped_quote hbytes hlast (fun h => absurd h (List.cons_ne_nil _ _)) hs
      obtain ⟨q, hq⟩ : ∃ q, quote 0 (c :: p) = chr '\\' :: q := by
        cases hquote : quote 0 (c :: p) with
        | nil => simp [hquote] at hhead
        | cons d q =>
          obtain rfl : d = chr '\\' := by simpa [hquote] using hhead
          exact ⟨q, rfl⟩
      rw [hq, List.cons_append] at hescaped ⊢
      rw [extractToken_slash, hescaped]
      exact ⟨true, rfl⟩
    have hrest : ∀ d ∈ p, isPathByte d := fun d hd => hbytes d (List.mem_cons_of_mem _ hd)
    have hlast' : p.getLast? ≠ some (chr '\\') := by
      cases p with
      | nil => simp
      | cons d p => simpa using hlast
    obtain ⟨needsDecode, htoken⟩ := ih hrest hlast'
    rcases byte_cases c with rfl | hblank | rfl | rfl | hplain
    · exact hslashes (by rw [quote_slash, List.head?_cons])
    · exact hslashes (by rw [quote_blank hblank]; rfl)
    · exact hslashes (by rw [quote_hash, List.head?_cons])
    · have hdollar : (!isSpecial (chr '$') || decide (chr '$' = chr '$')) = true := by decide
      rw [quote_dollar, List.cons_append, List.cons_append, extractToken_cons hdollar,
        extractToken_cons hdollar, htoken]
      exact ⟨_, rfl⟩
    · obtain ⟨hslash, -, hhash, hdollar⟩ := of_decide_eq_true hplain
      have hle := not_le_space hplain (hbytes c List.mem_cons_self)
      have hspecial : (!isSpecial c || decide (c = chr '$')) = true := by
        simp [isSpecial, hslash, hhash, hdollar, hle]
      rw [quote_plain 0 hplain, List.cons_append, extractToken_cons hspecial, htoken]
      exact ⟨_, rfl⟩

/-- A quoted path is read back from the front of a text. -/
theorem decode_extractToken_quote {p s : Bytes} (hp : IsPath p) (hs : Stops s) :
    ∃ needsDecode, extractToken (quote 0 p ++ s) = (quote 0 p, needsDecode, s) ∧
      decodeDepfileToken (quote 0 p) needsDecode = p := by
  obtain ⟨needsDecode, htoken⟩ := extractToken_quote hp.bytes hp.getLast hs
  refine ⟨needsDecode, htoken, ?_⟩
  rw [decodeDepfileToken_eq, unquote_quote, List.replicate_zero, List.nil_append]
  rintro rfl
  exact plain_of_extractToken htoken

end Tokens

/-! ### Rules -/

section Rules

/-- A blank or a tab is skipped. -/
theorem skipWhitespace_blank {c : UInt8} (hc : c = chr ' ' ∨ c = chr '\t') (s : Bytes) :
    skipWhitespace false (c :: s) = skipWhitespace false s := by
  have hline : c ≠ chr '\n' ∧ c ≠ chr '\r' ∧ c ≤ chr ' ' := by rcases hc with rfl | rfl <;> decide
  rw [skipWhitespace.eq_def]
  simp [hline.1, hline.2.1, hline.2.2]

/-- A continuation is skipped, its carriage return included. -/
theorem skipWhitespace_continuation (s : Bytes) :
    skipWhitespace false (ascii "\\\n" ++ s) = skipWhitespace false s ∧
      skipWhitespace false (ascii "\\\r\n" ++ s) = skipWhitespace false s := by
  have hslash : ¬ chr '\\' ≤ chr ' ' ∧ chr '\\' ≠ chr '\n' ∧ chr '\\' ≠ chr '\r' := by decide
  have hcr : chr '\r' ≠ chr '\n' := by decide
  constructor
  · rfl
  · change skipWhitespace false (chr '\\' :: chr '\r' :: chr '\n' :: s) = _
    rw [skipWhitespace.eq_def]
    simp [hslash.1, hslash.2.1, hslash.2.2, hcr]
    rw [skipWhitespace.eq_def]
    simp

/-- Separators are skipped. -/
theorem skipWhitespace_separator {sep : Bytes} (hsep : IsSeparator sep) (s : Bytes) :
    skipWhitespace false (sep ++ s) = skipWhitespace false s := by
  obtain ⟨pieces, hpieces, rfl⟩ := hsep
  induction pieces with
  | nil => rfl
  | cons piece pieces ih =>
    have hrest := ih fun q hq => hpieces q (List.mem_cons_of_mem _ hq)
    rw [List.flatten_cons, List.append_assoc, ← hrest]
    have hpiece := hpieces piece List.mem_cons_self
    simp only [separatorPieces, List.mem_cons, List.not_mem_nil, or_false] at hpiece
    rcases hpiece with rfl | rfl | rfl | rfl
    · exact skipWhitespace_blank (.inl rfl) _
    · exact skipWhitespace_blank (.inr rfl) _
    · exact (skipWhitespace_continuation _).1
    · exact (skipWhitespace_continuation _).2

/-- A separator ends a token. -/
theorem stops_separator {sep : Bytes} (hsep : IsSeparator sep) (hne : sep ≠ []) (s : Bytes) :
    Stops (sep ++ s) := by
  obtain ⟨pieces, hpieces, rfl⟩ := hsep
  cases pieces with
  | nil => exact absurd rfl hne
  | cons piece pieces =>
    have hpiece := hpieces piece List.mem_cons_self
    simp only [separatorPieces, List.mem_cons, List.not_mem_nil, or_false] at hpiece
    rcases hpiece with rfl | rfl | rfl | rfl
    · exact .inr (.inl ⟨_, _, rfl, by decide⟩)
    · exact .inr (.inl ⟨_, _, rfl, by decide⟩)
    · exact .inr (.inr ⟨_, _, rfl, .inl rfl⟩)
    · exact .inr (.inr ⟨_, _, rfl, .inr rfl⟩)

/-- So does the end of a rule. -/
theorem stops_ruleEnd {s : Bytes} (hs : IsRuleEnd s) : Stops s := by
  rcases hs with rfl | ⟨rest, rfl | rfl⟩
  · exact .inl rfl
  · exact .inr (.inl ⟨_, _, rfl, by decide⟩)
  · exact .inr (.inl ⟨_, _, rfl, by decide⟩)

/-- A backslash that does not end a line begins a token. -/
theorem skipWhitespace_slash {d : UInt8} (hd : d ≠ chr '\n' ∧ d ≠ chr '\r') (s : Bytes) :
    skipWhitespace false (chr '\\' :: d :: s) = chr '\\' :: d :: s := by
  have hslash : ¬ chr '\\' ≤ chr ' ' ∧ chr '\\' ≠ chr '\n' ∧ chr '\\' ≠ chr '\r' := by decide
  rw [skipWhitespace.eq_def]
  simp [hslash.1, hslash.2.1, hslash.2.2, hd.1, hd.2]

/-- So does a byte behind the space that is no backslash. -/
theorem skipWhitespace_of_not_le {c : UInt8} (hc : ¬ c ≤ chr ' ') (hslash : c ≠ chr '\\')
    (s : Bytes) : skipWhitespace false (c :: s) = c :: s := by
  rw [skipWhitespace.eq_def]
  simp [hc, hslash]

/-- A quoted path begins a token: nothing of it is skipped. -/
theorem skipWhitespace_quote {p : Bytes} (hp : IsPath p) (s : Bytes) :
    ∃ c q, quote 0 p = c :: q ∧ skipWhitespace false (quote 0 p ++ s) = quote 0 p ++ s ∧
      ¬(c = chr '\n' ∨ c = chr '\r' ∨ c = chr '#') := by
  obtain ⟨hne, hbytes, hlast⟩ := hp
  obtain ⟨c, p, rfl⟩ := List.exists_cons_of_ne_nil hne
  have hc := hbytes c List.mem_cons_self
  have hrest : ∀ d ∈ p, isPathByte d := fun d hd => hbytes d (List.mem_cons_of_mem _ hd)
  have hfirst : ¬(chr '\\' = chr '\n' ∨ chr '\\' = chr '\r' ∨ chr '\\' = chr '#') := by decide
  -- what the quoted path begins with: backslash, blank, `#`, dollar, or a plain byte
  rcases byte_cases c with rfl | hblank | rfl | rfl | hplain
  · have hmore : p ≠ [] := by
      rintro rfl
      simp at hlast
    obtain ⟨d, q, hq, hd⟩ := head_quote 1 hmore hrest
    refine ⟨_, _, quote_slash 0 p, ?_, hfirst⟩
    rw [quote_slash, hq]
    exact skipWhitespace_slash hd _
  · refine ⟨_, _, quote_blank hblank 0 p, ?_, hfirst⟩
    rw [quote_blank hblank]
    exact skipWhitespace_slash (ne_of_isPathByte hc) _
  · refine ⟨_, _, quote_hash 0 p, ?_, hfirst⟩
    rw [quote_hash]
    exact skipWhitespace_slash (ne_of_isPathByte hc) _
  · refine ⟨_, _, quote_dollar 0 p, ?_, by decide⟩
    rw [quote_dollar]
    exact skipWhitespace_of_not_le (by decide) (by decide) _
  · obtain ⟨hslash, -, hhash, -⟩ := of_decide_eq_true hplain
    refine ⟨_, _, quote_plain 0 hplain p, ?_, ?_⟩
    · rw [quote_plain 0 hplain]
      exact skipWhitespace_of_not_le (not_le_space hplain hc) hslash _
    · simpa [hhash] using ne_of_isPathByte hc

/-- One round of the main loop reads one path. -/
theorem prerequisites_quote {p s : Bytes} (hp : IsPath p) (hs : Stops s) (fuel : ℕ) :
    prerequisites (fuel + 1) (quote 0 p ++ s) = p :: prerequisites fuel s := by
  obtain ⟨c, q, hq, hskip, hstart⟩ := skipWhitespace_quote hp s
  obtain ⟨needsDecode, htoken, hdecode⟩ := decode_extractToken_quote hp hs
  rw [prerequisites, hskip]
  rw [hq] at htoken hdecode ⊢
  rw [List.cons_append] at htoken ⊢
  simp only [if_neg hstart, htoken, hdecode, reduceCtorEq, if_false]

/-- Separators do not matter to the main loop. -/
theorem prerequisites_separator {sep : Bytes} (hsep : IsSeparator sep) (fuel : ℕ) (s : Bytes) :
    prerequisites fuel (sep ++ s) = prerequisites fuel s := by
  cases fuel with
  | zero => rfl
  | succ fuel => rw [prerequisites, prerequisites, skipWhitespace_separator hsep]

/-- The main loop ends where the rule ends. -/
theorem prerequisites_ruleEnd {s : Bytes} (hs : IsRuleEnd s) (fuel : ℕ) :
    prerequisites fuel s = [] := by
  cases fuel with
  | zero => rfl
  | succ fuel =>
    have hline : ∀ c s, c = chr '\n' ∨ c = chr '\r' → prerequisites (fuel + 1) (c :: s) = [] := by
      intro c s hc
      have hskip : skipWhitespace false (c :: s) = c :: s := by
        rw [skipWhitespace.eq_def]
        simp [hc]
      rw [prerequisites, hskip]
      exact if_pos (hc.imp_right .inl)
    rcases hs with rfl | ⟨rest, rfl | rfl⟩
    · rfl
    · exact hline _ _ (.inl rfl)
    · exact hline _ _ (.inr rfl)

/-- The main loop reads the paths of a rule, one in each round. -/
theorem prerequisites_joined {paths : List Bytes} {text rest : Bytes} (h : Joined paths text)
    (hpaths : ∀ p ∈ paths, IsPath p) (hrest : IsRuleEnd rest) {fuel : ℕ}
    (hfuel : paths.length ≤ fuel) : prerequisites fuel (text ++ rest) = paths := by
  induction h generalizing fuel with
  | nil => exact prerequisites_ruleEnd hrest fuel
  | single p =>
    obtain ⟨fuel, rfl⟩ := Nat.exists_eq_add_of_le' hfuel
    rw [List.length_singleton, prerequisites_quote (hpaths p List.mem_cons_self)
      (stops_ruleEnd hrest), prerequisites_ruleEnd hrest]
  | @cons p q paths sep s hsep hne _ ih =>
    obtain ⟨fuel, rfl⟩ := Nat.exists_eq_add_of_le' hfuel
    have hmore : prerequisites (fuel + (q :: paths).length) (s ++ rest) = q :: paths :=
      ih (fun r hr => hpaths r (List.mem_cons_of_mem _ hr)) (Nat.le_add_left _ _)
    rw [List.append_assoc, List.append_assoc, List.length_cons, ← Nat.add_assoc,
      prerequisites_quote (hpaths p List.mem_cons_self) (stops_separator hsep hne _),
      prerequisites_separator hsep, hmore]

/-- A text has a byte at least for each of its paths. -/
theorem length_le_of_joined {paths : List Bytes} {text : Bytes} (h : Joined paths text)
    (hpaths : ∀ p ∈ paths, IsPath p) : paths.length ≤ text.length := by
  have hquote : ∀ p, IsPath p → 1 ≤ (quote 0 p).length := by
    intro p hp
    obtain ⟨d, q, hq, -⟩ := head_quote 0 hp.ne_nil hp.bytes
    simp [hq]
  induction h with
  | nil => simp
  | single p => exact hquote p (hpaths p List.mem_cons_self)
  | @cons p q paths sep s _ _ _ ih =>
    have hone := hquote p (hpaths p List.mem_cons_self)
    have hmore := ih fun r hr => hpaths r (List.mem_cons_of_mem _ hr)
    simp only [List.length_cons, List.length_append] at hmore ⊢
    omega

/-- The target scan stops at the colon of a plain target list. -/
theorem skipTargets_plain {targets : Bytes} (htargets : ∀ c ∈ targets, isTargetByte c) (col : ℕ)
    {b : UInt8} (hb : b = chr ' ' ∨ b = chr '\t') (s : Bytes) :
    skipTargets col (targets ++ chr ':' :: b :: s) = some (b :: s) := by
  induction targets generalizing col with
  | nil =>
    have hdrive : ¬(b = chr '/' ∨ b = chr '\\') := by rcases hb with rfl | rfl <;> decide
    have hcolon : chr ':' ≠ chr '\n' ∧ chr ':' ≠ chr '\r' ∧ chr ':' ≠ chr '#' ∧
        chr ':' ≠ chr '\\' := by decide
    rw [List.nil_append, skipTargets.eq_def]
    simp [hcolon.1, hcolon.2.1, hcolon.2.2.1, hcolon.2.2.2, hdrive]
  | cons c targets ih =>
    have hc := htargets c List.mem_cons_self
    have hrest := fun col => ih (fun d hd => htargets d (List.mem_cons_of_mem _ hd)) col
    have hne : c ≠ chr '\n' ∧ c ≠ chr '\r' ∧ c ≠ chr '#' ∧ c ≠ chr '\\' ∧ c ≠ chr ':' := by
      refine ⟨?_, ?_, ?_, ?_, ?_⟩ <;> rintro rfl <;> revert hc <;> decide
    -- there is a byte behind this one, the colon at the latest
    obtain ⟨d, r, hmore⟩ : ∃ d r, targets ++ chr ':' :: b :: s = d :: r :=
      List.exists_cons_of_ne_nil (by simp)
    rw [hmore] at hrest
    rw [List.cons_append, hmore, skipTargets.eq_def]
    simp only [hne.1, hne.2.1, hne.2.2.1, hne.2.2.2.1, hne.2.2.2.2, or_self, if_false, hrest]
    split_ifs <;> rfl

end Rules

end Depfile

open Depfile in
/-- `parseDepfile` finds the paths that a compiler quoted: behind plain targets and a colon, with
any separators between them, and whatever follows the rule. -/
theorem parseDepfile_joined {targets lead sep text rest : Bytes} {paths : List Bytes}
    (htargets : ∀ c ∈ targets, isTargetByte c) (hlead : lead = ascii " " ∨ lead = ascii "\t")
    (hsep : IsSeparator sep) (htext : Joined paths text) (hpaths : ∀ p ∈ paths, IsPath p)
    (hrest : IsRuleEnd rest) :
    parseDepfile (targets ++ ascii ":" ++ lead ++ sep ++ text ++ rest) = paths := by
  have hblank : ∃ b, lead = [b] ∧ (b = chr ' ' ∨ b = chr '\t') := by
    rcases hlead with rfl | rfl
    · exact ⟨_, rfl, .inl rfl⟩
    · exact ⟨_, rfl, .inr rfl⟩
  obtain ⟨b, rfl, hb⟩ := hblank
  have hlead' : IsSeparator [b] := by
    refine ⟨[[b]], ?_, rfl⟩
    rcases hb with rfl | rfl <;> decide
  -- the reader has a round for every path
  have hlong : paths.length ≤ (b :: (sep ++ (text ++ rest))).length := by
    have hle := length_le_of_joined htext hpaths
    simp only [List.length_cons, List.length_append]
    omega
  have hcontent : targets ++ ascii ":" ++ [b] ++ sep ++ text ++ rest =
      targets ++ chr ':' :: b :: (sep ++ (text ++ rest)) := by
    simp only [List.append_assoc]
    rfl
  rw [parseDepfile, hcontent, skipTargets_plain htargets 0 hb]
  -- skip the blank, skip the separator, read the paths
  calc prerequisites (b :: (sep ++ (text ++ rest))).length (b :: (sep ++ (text ++ rest)))
      = prerequisites _ (sep ++ (text ++ rest)) := prerequisites_separator hlead' _ _
    _ = prerequisites _ (text ++ rest) := prerequisites_separator hsep _ _
    _ = paths := prerequisites_joined htext hpaths hrest hlong

/-- Blanks, backslashes, a hash and dollars, a continuation glued to a path, and a second rule. -/
theorem parseDepfile_joined_mixed :
    parseDepfile (ascii "o" ++ ascii ":" ++ ascii " " ++ ascii "\\\n" ++
      (Depfile.quote 0 (ascii "a\\ b#") ++ (ascii "\\\r\n" ++ Depfile.quote 0 (ascii "$c"))) ++
        ascii "\nx: y") = [ascii "a\\ b#", ascii "$c"] := by
  refine parseDepfile_joined (by decide +kernel) (.inl rfl) ⟨[ascii "\\\n"], by decide +kernel, rfl⟩
    (.cons ⟨[ascii "\\\r\n"], by decide +kernel, rfl⟩ (by decide +kernel) (.single _)) ?_
    (.inr ⟨ascii "x: y", .inl rfl⟩)
  intro p hp
  simp only [List.mem_cons, List.not_mem_nil, or_false] at hp
  rcases hp with rfl | rfl
  · exact ⟨by decide +kernel, by decide +kernel, by decide +kernel⟩
  · exact ⟨by decide +kernel, by decide +kernel, by decide +kernel⟩

end Cob
