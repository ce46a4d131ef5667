import Cob.Command
import Cob.Graph.Quoting

/-!
# The target that is asked for

`buildCommandArgs` passes the output with `-MT`, so the compiler writes it into the dependency file
as it is, without Make quoting. The target scan of `parseDepfile` reads it as Make does: a hash
begins a comment, a backslash takes the byte behind it, and a colon ends the targets unless it
belongs to a drive prefix.

* `TargetText` — the texts that the target scan takes as a whole;
* `targetText_or_misread` — any other output ends the scan early, or hides the separator from it;
* `skipped_iff` — the outputs whose dependency files are read back.
-/

namespace Cob

namespace Depfile

/-- A byte without a meaning to the target scan. -/
def isPlainTarget (c : UInt8) : Bool :=
  c ≠ chr '\n' && c ≠ chr '\r' && c ≠ chr '#' && c ≠ chr '\\' && c ≠ chr ':' && c ≠ chr ' ' &&
    c ≠ chr '\t'

/-- Names with blanks between them, where a colon is escaped or follows the first byte of a name
and has a slash behind it; the first argument is the distance from the start of the name. -/
inductive TargetText : ℕ → Bytes → Prop
  | nil (col : ℕ) : TargetText col []
  | plain {col : ℕ} {c : UInt8} {s : Bytes} :
      isPlainTarget c → TargetText (col + 1) s → TargetText col (c :: s)
  | blank {col : ℕ} {c : UInt8} {s : Bytes} :
      c = chr ' ' ∨ c = chr '\t' → TargetText 0 s → TargetText col (c :: s)
  | escaped {col : ℕ} {c : UInt8} {s : Bytes} :
      TargetText (col + 2) s → TargetText col (chr '\\' :: c :: s)
  | drive {d : UInt8} {s : Bytes} :
      d = chr '/' ∨ d = chr '\\' → TargetText 2 (d :: s) → TargetText 1 (chr ':' :: d :: s)

/-- A byte that `skipWhitespace` skips in a line. -/
def isLow (c : UInt8) : Bool := c ≤ chr ' '

/-- A text without line ends. -/
def OneLine (s : Bytes) : Prop := ∀ c ∈ s, c ≠ chr '\n' ∧ c ≠ chr '\r'

/-! ### The target scan -/

section Scan

variable {col : ℕ} {c d : UInt8} {o s : Bytes}

/-- A byte that is only passed, behind which there is another one. -/
theorem skipTargets_plainTarget (hc : isPlainTarget c) (hs : s ≠ []) :
    skipTargets col (c :: s) = skipTargets (col + 1) s := by
  obtain ⟨d, r, rfl⟩ := List.exists_cons_of_ne_nil hs
  simp only [isPlainTarget, Bool.and_eq_true, decide_eq_true_eq] at hc
  rw [skipTargets.eq_def]
  simp [hc]

theorem skipTargets_blank (hc : c = chr ' ' ∨ c = chr '\t') (hs : s ≠ []) :
    skipTargets col (c :: s) = skipTargets 0 s := by
  obtain ⟨d, r, rfl⟩ := List.exists_cons_of_ne_nil hs
  have hne : c ≠ chr '\n' ∧ c ≠ chr '\r' ∧ c ≠ chr '#' ∧ c ≠ chr '\\' ∧ c ≠ chr ':' := by
    rcases hc with rfl | rfl <;> decide
  rw [skipTargets.eq_def]
  simp [hne, hc]

/-- A backslash takes the next byte with it. -/
theorem skipTargets_escaped (hd : d ≠ chr '\r') (hs : s ≠ []) :
    skipTargets col (chr '\\' :: d :: s) = skipTargets (col + 2) s := by
  obtain ⟨e, r, rfl⟩ := List.exists_cons_of_ne_nil hs
  have hslash : ¬ (chr '\\' = chr '\n' ∨ chr '\\' = chr '\r' ∨ chr '\\' = chr '#') := by decide
  rw [skipTargets.eq_def]
  simp [hslash, hd]

theorem skipTargets_hash : skipTargets col (chr '#' :: s) = none := by
  rw [skipTargets.eq_def]
  simp

/-- The colon of a drive prefix. -/
theorem skipTargets_drive (hd : d = chr '/' ∨ d = chr '\\') :
    skipTargets 1 (chr ':' :: d :: s) = skipTargets 2 (d :: s) := by
  have hcolon : ¬ (chr ':' = chr '\n' ∨ chr ':' = chr '\r' ∨ chr ':' = chr '#') ∧
      chr ':' ≠ chr '\\' := by decide
  rw [skipTargets.eq_def]
  simp [hcolon.1, hcolon.2, hd]

/-- Any other colon. -/
theorem skipTargets_colon (h : ¬ (col = 1 ∧ (d = chr '/' ∨ d = chr '\\'))) :
    skipTargets col (chr ':' :: d :: s) = some (d :: s) := by
  have hcolon : ¬ (chr ':' = chr '\n' ∨ chr ':' = chr '\r' ∨ chr ':' = chr '#') ∧
      chr ':' ≠ chr '\\' := by decide
  rw [skipTargets.eq_def]
  simp [hcolon.1, hcolon.2, h]

/-- A target text is skipped, and its separator with it. -/
theorem TargetText.skipTargets (h : TargetText col o) (ho : OneLine o) (t : Bytes) :
    Depfile.skipTargets col (o ++ chr ':' :: chr ' ' :: t) = some (chr ' ' :: t) := by
  have hmore : ∀ s : Bytes, s ++ chr ':' :: chr ' ' :: t ≠ [] := fun s => by simp
  induction h with
  | nil col => exact skipTargets_colon fun h => absurd h.2 (by decide)
  | plain hc _ ih =>
    rw [List.cons_append, skipTargets_plainTarget hc (hmore _)]
    exact ih fun d hd => ho d (List.mem_cons_of_mem _ hd)
  | blank hc _ ih =>
    rw [List.cons_append, skipTargets_blank hc (hmore _)]
    exact ih fun d hd => ho d (List.mem_cons_of_mem _ hd)
  | @escaped col c s _ ih =>
    have hc := ho c (List.mem_cons_of_mem _ List.mem_cons_self)
    rw [List.cons_append, List.cons_append, skipTargets_escaped hc.2 (hmore _)]
    exact ih fun d hd => ho d (List.mem_cons_of_mem _ (List.mem_cons_of_mem _ hd))
  | drive hd _ ih =>
    rw [List.cons_append, List.cons_append, skipTargets_drive hd]
    exact ih fun d hd => ho d (List.mem_cons_of_mem _ hd)

/-- What the scan makes of an output and its separator when it does not skip them: a comment, an
escaped separator, or a separator inside the output. -/
inductive Misread (col : ℕ) (o : Bytes) : Prop
  | comment : (∀ t, Depfile.skipTargets col (o ++ chr ':' :: chr ' ' :: t) = none) → Misread col o
  | hidden (col' : ℕ) : (∀ t, Depfile.skipTargets col (o ++ chr ':' :: chr ' ' :: t) =
      Depfile.skipTargets col' (chr ' ' :: t)) → Misread col o
  | early (o' : Bytes) : OneLine o' → (∀ t, Depfile.skipTargets col (o ++ chr ':' :: chr ' ' :: t) =
      some (o' ++ chr ':' :: chr ' ' :: t)) → Misread col o

/-- A step of the scan that does not depend on what follows. -/
theorem Misread.step {col' : ℕ} {o' : Bytes} (h : Misread col' o')
    (hstep : ∀ t, Depfile.skipTargets col (o ++ chr ':' :: chr ' ' :: t) =
      Depfile.skipTargets col' (o' ++ chr ':' :: chr ' ' :: t)) : Misread col o := by
  cases h with
  | comment h => exact .comment fun t => (hstep t).trans (h t)
  | hidden k h => exact .hidden k fun t => (hstep t).trans (h t)
  | early o₂ hline h => exact .early o₂ hline fun t => (hstep t).trans (h t)

/-- An output is a target text, or it is misread. -/
theorem targetText_or_misread : ∀ o : Bytes, OneLine o → ∀ col, TargetText col o ∨ Misread col o
  | [], _, col => .inl (.nil col)
  | c :: o, ho, col => by
    have hline := ho c List.mem_cons_self
    have hrest : OneLine o := fun e he => ho e (List.mem_cons_of_mem _ he)
    have hmore : ∀ t : Bytes, o ++ chr ':' :: chr ' ' :: t ≠ [] := fun t => by simp
    by_cases hhash : c = chr '#'
    · exact .inr (.comment fun t => hhash ▸ skipTargets_hash)
    by_cases hslash : c = chr '\\'
    · subst hslash
      cases o with
      | nil =>
        -- the backslash takes the separator
        refine .inr (.hidden (col + 2) fun t => ?_)
        exact skipTargets_escaped (by decide) (List.cons_ne_nil _ _)
      | cons d o =>
        have hd := hrest d List.mem_cons_self
        have hrest' : OneLine o := fun e he => hrest e (List.mem_cons_of_mem _ he)
        refine (targetText_or_misread o hrest' (col + 2)).imp .escaped fun h => h.step fun t => ?_
        exact skipTargets_escaped hd.2 (by simp)
    by_cases hcolon : c = chr ':'
    · subst hcolon
      cases o with
      | nil =>
        refine .inr (.early [] nofun fun t => ?_)
        exact skipTargets_colon fun h => absurd h.2 (by decide)
      | cons d o =>
        by_cases hdrive : col = 1 ∧ (d = chr '/' ∨ d = chr '\\')
        · obtain ⟨rfl, hd⟩ := hdrive
          refine (targetText_or_misread (d :: o) hrest 2).imp (.drive hd) fun h =>
            h.step fun t => ?_
          exact skipTargets_drive hd
        · exact .inr (.early (d :: o) hrest fun t => skipTargets_colon hdrive)
    by_cases hblank : c = chr ' ' ∨ c = chr '\t'
    · refine (targetText_or_misread o hrest 0).imp (.blank hblank) fun h => h.step fun t => ?_
      exact skipTargets_blank hblank (hmore t)
    · have hplain : isPlainTarget c = true := by
        rw [not_or] at hblank
        simp [isPlainTarget, hhash, hslash, hcolon, hblank, hline]
      refine (targetText_or_misread o hrest (col + 1)).imp (.plain hplain) fun h =>
        h.step fun t => ?_
      exact skipTargets_plainTarget hplain (hmore t)
termination_by o => o.length

end Scan

/-! ### What is read behind an early separator -/

section Early

variable {c : UInt8} {s t : Bytes}

/-- In one line only blanks are skipped. -/
theorem skipWhitespace_oneLine (hs : OneLine s) :
    skipWhitespace false s = s.dropWhile isLow := by
  induction s with
  | nil => rfl
  | cons c s ih =>
    have hline := hs c List.mem_cons_self
    have hrest : OneLine s := fun d hd => hs d (List.mem_cons_of_mem _ hd)
    by_cases hle : c ≤ chr ' '
    · have hlow : isLow c = true := decide_eq_true hle
      rw [List.dropWhile_cons_of_pos hlow, ← ih hrest, skipWhitespace.eq_def]
      simp [hline, hle]
    · rw [List.dropWhile_cons_of_neg (by simpa [isLow] using hle)]
      by_cases hslash : c = chr '\\'
      · subst hslash
        cases s with
        | nil => rfl
        | cons d s => exact skipWhitespace_slash (hrest d List.mem_cons_self) s
      · exact skipWhitespace_of_not_le hle hslash s

/-- A token is not empty. -/
theorem extractToken_ne_nil (hs : OneLine (c :: s)) (hle : ¬ c ≤ chr ' ') (hhash : c ≠ chr '#') :
    (extractToken (c :: s)).1 ≠ [] := by
  have hrest : OneLine s := fun d hd => hs d (List.mem_cons_of_mem _ hd)
  by_cases hslash : c = chr '\\'
  · subst hslash
    rw [extractToken_slash]
    cases s with
    | nil => exact List.cons_ne_nil _ _
    | cons d s =>
      rw [escaped_slash 0 (hrest d List.mem_cons_self)]
      exact List.cons_ne_nil _ _
  · have hc : (!isSpecial c || decide (c = chr '$')) = true := by
      simp [isSpecial, hle, hhash, hslash]
    rw [extractToken_cons hc]
    exact List.cons_ne_nil _ _

/-- Where nothing is read, there is a comment. -/
theorem prerequisites_ne_nil {fuel : ℕ} {r : Bytes} (hs : OneLine s)
    (hskip : s.dropWhile isLow = c :: r) (hhash : c ≠ chr '#') :
    prerequisites (fuel + 1) s ≠ [] := by
  have hsuffix := List.dropWhile_suffix isLow (l := s)
  rw [hskip] at hsuffix
  have hline : OneLine (c :: r) := fun d hd => hs d (hsuffix.mem hd)
  have hle : ¬ c ≤ chr ' ' := by
    have hhead := List.head?_dropWhile_not isLow s
    rw [hskip] at hhead
    simpa [isLow] using hhead
  have hc := hline c List.mem_cons_self
  have htoken := extractToken_ne_nil hline hle hhash
  rw [prerequisites, skipWhitespace_oneLine hs, hskip]
  simp only [hc.1, hc.2, hhash, or_self, if_false, htoken]
  exact List.cons_ne_nil _ _

theorem prerequisites_hash {fuel : ℕ} {r : Bytes} (hs : OneLine s)
    (hskip : s.dropWhile isLow = chr '#' :: r) :
    prerequisites fuel s = [] := by
  cases fuel with
  | zero => rfl
  | succ fuel =>
    rw [prerequisites, skipWhitespace_oneLine hs, hskip]
    exact if_pos (.inr (.inr rfl))

/-- Behind a separator inside the output, either a comment hides all prerequisites, or something
is read even when there are none. -/
theorem early_cases {o : Bytes} (ho : OneLine o) :
    (∀ fuel t, OneLine t → prerequisites fuel (o ++ chr ':' :: chr ' ' :: t) = []) ∨
      ∀ fuel t, OneLine t → prerequisites (fuel + 1) (o ++ chr ':' :: chr ' ' :: t) ≠ [] := by
  have hline : ∀ t, OneLine t → OneLine (o ++ chr ':' :: chr ' ' :: t) := by
    intro t ht c hc
    simp only [List.mem_append, List.mem_cons] at hc
    rcases hc with hc | rfl | rfl | hc
    · exact ho c hc
    · decide
    · decide
    · exact ht c hc
  -- the first byte behind the blanks does not depend on the prerequisites
  obtain ⟨c, hc⟩ : ∃ c, ∀ t : Bytes, ∃ r, (o ++ chr ':' :: chr ' ' :: t).dropWhile isLow =
      c :: r := by
    cases hdrop : o.dropWhile isLow with
    | nil =>
      refine ⟨chr ':', fun t => ⟨chr ' ' :: t, ?_⟩⟩
      rw [List.dropWhile_append, hdrop]
      rfl
    | cons c r =>
      refine ⟨c, fun t => ⟨r ++ chr ':' :: chr ' ' :: t, ?_⟩⟩
      rw [List.dropWhile_append, hdrop]
      rfl
  by_cases hhash : c = chr '#'
  · subst hhash
    refine .inl fun fuel t ht => ?_
    obtain ⟨r, hr⟩ := hc t
    exact prerequisites_hash (hline t ht) hr
  · refine .inr fun fuel t ht => ?_
    obtain ⟨r, hr⟩ := hc t
    exact prerequisites_ne_nil (hline t ht) hr hhash

end Early

/-! ### Dependency files -/

/-- A byte of a plain path: a letter, a digit, `_`, `-`, `.` or `/`. -/
def isPlainPathByte (c : UInt8) : Bool := isTargetByte c && c ≠ chr ' '

/-- A plain path. -/
structure IsPlainPath (p : Bytes) : Prop where
  ne_nil : p ≠ []
  bytes : ∀ c ∈ p, isPlainPathByte c

section Paths

variable {p : Bytes} {paths : List Bytes}

theorem isPlain_of_isPlainPathByte {c : UInt8} (h : isPlainPathByte c) :
    isPlain c ∧ isPathByte c ∧ c ≠ chr '\\' := by
  have hall : ∀ n < 256, isPlainPathByte (UInt8.ofNat n) → isPlain (UInt8.ofNat n) ∧
      isPathByte (UInt8.ofNat n) ∧ UInt8.ofNat n ≠ chr '\\' := by decide +kernel
  have hc := hall c.toNat c.toNat_lt
  rw [UInt8.ofNat_toNat] at hc
  exact hc h

theorem IsPlainPath.isPath (h : IsPlainPath p) : IsPath p := by
  refine ⟨h.ne_nil, fun c hc => (isPlain_of_isPlainPathByte (h.bytes c hc)).2.1, fun hlast => ?_⟩
  have hmem := List.mem_of_getLast? hlast
  exact (isPlain_of_isPlainPathByte (h.bytes _ hmem)).2.2 rfl

/-- Quoting leaves plain paths alone. -/
theorem quote_plainPath (h : ∀ c ∈ p, isPlainPathByte c) (run : ℕ) : quote run p = p := by
  induction p generalizing run with
  | nil => rfl
  | cons c p ih =>
    rw [quote_plain run (isPlain_of_isPlainPathByte (h c List.mem_cons_self)).1,
      ih fun d hd => h d (List.mem_cons_of_mem _ hd)]

/-- Plain paths with spaces between them. -/
theorem joined_plainPaths (h : ∀ p ∈ paths, IsPlainPath p) :
    Joined paths ((ascii " ").intercalate paths) := by
  induction paths with
  | nil => exact .nil
  | cons p paths ih =>
    have hp := quote_plainPath (h p List.mem_cons_self).bytes 0
    have hrest := ih fun q hq => h q (List.mem_cons_of_mem _ hq)
    cases paths with
    | nil =>
      rw [List.intercalate_singleton]
      have hsingle := Joined.single p
      rwa [hp] at hsingle
    | cons q paths =>
      have hsep : IsSeparator (ascii " ") := ⟨[ascii " "], by decide, rfl⟩
      have hcons := Joined.cons (p := p) hsep (List.cons_ne_nil _ _) hrest
      rwa [hp, ← List.append_assoc, ← List.intercalate_cons_cons] at hcons

end Paths

end Depfile

open Depfile

/-- The dependency file of a compiler that writes the argument of `-MT` as the target. -/
def depfileText (target : Bytes) (paths : List Bytes) : Bytes :=
  target ++ (ascii ": " ++ (ascii " ").intercalate paths)

section Target

variable {o : Bytes} {paths : List Bytes}

/-- A target text is skipped, and the prerequisites are read. -/
theorem parseDepfile_targetText (ho : OneLine o) (htarget : TargetText 0 o)
    (hpaths : ∀ p ∈ paths, IsPlainPath p) : parseDepfile (depfileText o paths) = paths := by
  have htext : depfileText o paths = o ++ chr ':' :: chr ' ' :: (ascii " ").intercalate paths := rfl
  have hjoined := joined_plainPaths hpaths
  have hispath : ∀ p ∈ paths, IsPath p := fun p hp => (hpaths p hp).isPath
  have hlong := length_le_of_joined hjoined hispath
  have hread := prerequisites_joined hjoined hispath (.inl rfl)
    (hlong.trans (Nat.le_succ _))
  rw [parseDepfile, htext, htarget.skipTargets ho]
  rw [List.append_nil] at hread
  exact (prerequisites_separator ⟨[ascii " "], by decide, rfl⟩ _ _).trans hread

/-- An output that is misread loses a prerequisite, or gives one where there is none. -/
theorem not_read_of_misread (h : Misread 0 o) :
    ¬ ∀ paths, (∀ p ∈ paths, IsPlainPath p) → parseDepfile (depfileText o paths) = paths := by
  intro hall
  have hx : ∀ p ∈ [ascii "x"], IsPlainPath p := by
    intro p hp
    rw [List.mem_singleton.mp hp]
    exact ⟨by decide, List.all_eq_true.mp rfl⟩
  have hnone : parseDepfile (o ++ chr ':' :: chr ' ' :: []) = [] := hall [] (List.forall_mem_nil _)
  have hone : parseDepfile (o ++ chr ':' :: chr ' ' :: ascii "x") = [ascii "x"] := hall _ hx
  rw [parseDepfile] at hnone hone
  cases h with
  | comment h =>
    rw [h] at hone
    exact absurd hone (by decide)
  | hidden col h =>
    -- there is no other colon, so the scan takes all
    have hscan : skipTargets col (chr ' ' :: ascii "x") = some [] :=
      (skipTargets_blank (.inl rfl) (List.cons_ne_nil _ _)).trans rfl
    rw [h, hscan] at hone
    exact absurd hone (by decide)
  | early o' hline h =>
    rw [h] at hnone hone
    dsimp only at hnone hone
    have hxline : OneLine (ascii "x") := by
      intro c hc
      rw [List.mem_singleton.mp hc]
      decide
    rcases early_cases hline with hempty | hsome
    · rw [hempty _ _ hxline] at hone
      exact absurd hone (by decide)
    · obtain ⟨fuel, hfuel⟩ : ∃ fuel, (o' ++ chr ':' :: chr ' ' :: []).length = fuel + 1 := by
        rw [List.length_append]
        exact ⟨_, rfl⟩
      rw [hfuel] at hnone
      exact hsome fuel [] (List.forall_mem_nil _) hnone

/-- The output of a compile step is the argument of `-MT`, as it is. -/
theorem target_of_isCompile {st : BuildStep} (h : st.isCompile = true) (flags : ToolchainFlags)
    (usable : Bool) : [ascii "-MT", st.output] <:+: buildCommandArgs st flags usable := by
  have hargs : [ascii "-MT", st.output] <:+: compileArgs st := by
    refine ⟨Bytes.words st.extraFlags ++ [ascii "-MMD"],
      [ascii "-MF", st.depfilePath, ascii "-c"] ++
      st.parsedInputs ++ [ascii "-o", st.output], ?_⟩
    simp only [compileArgs, List.append_assoc]
    rfl
  rw [BuildStep.isCompile, decide_eq_true_eq] at h
  rw [buildCommandArgs]
  by_cases hcc : st.tool = ascii "cc"
  · rw [if_pos hcc]
    exact hargs.trans (List.suffix_append _ _).isInfix
  · rw [if_neg hcc, if_pos (h.resolve_left hcc)]
    exact hargs.trans (List.suffix_append _ _).isInfix

/-- **Targets.** The target of a compile step is its output, and it is skipped, for all plain
prerequisites, exactly when it is a target text. -/
theorem skipped_iff {st : BuildStep} (hcompile : st.isCompile = true) (flags : ToolchainFlags)
    (usable : Bool)
    (houtput : ∀ c ∈ st.output, c ≠ chr '\n' ∧ c ≠ chr '\r' ∧ c ≠ chr '|') :
    [ascii "-MT", st.output] <:+: buildCommandArgs st flags usable ∧
      ((∀ paths, (∀ p ∈ paths, IsPlainPath p) →
        parseDepfile (depfileText st.output paths) = paths) ↔ TargetText 0 st.output) := by
  have hline : OneLine st.output := fun c hc => ⟨(houtput c hc).1, (houtput c hc).2.1⟩
  refine ⟨target_of_isCompile hcompile flags usable, fun hread => ?_,
    fun htarget paths hpaths => ?_⟩
  · rcases targetText_or_misread st.output hline 0 with htarget | hmisread
    · exact htarget
    · exact absurd hread (not_read_of_misread hmisread)
  · exact parseDepfile_targetText hline htarget hpaths

/-- A step that compiles to a file with a drive prefix, a blank and an escaped colon. -/
def driveStep : BuildStep where
  tool := ascii "cc"
  inputs := ascii "a.c"
  output := ascii "C:/out a\\:b.o"

theorem skipped_iff_driveStep :
    [ascii "-MT", driveStep.output] <:+: buildCommandArgs driveStep ⟨[], [], [], [], [], [], [], []⟩
        false ∧
      ((∀ paths, (∀ p ∈ paths, IsPlainPath p) →
        parseDepfile (depfileText driveStep.output paths) = paths) ↔
          TargetText 0 driveStep.output) :=
  skipped_iff (by decide +kernel) _ false (by decide +kernel)

/-- A hash in an output hides the prerequisites. -/
theorem not_skipped_hash : ¬ ∀ o : Bytes, (∀ c ∈ o, c ≠ chr '\n' ∧ c ≠ chr '\r' ∧ c ≠ chr '|') →
    ∀ paths, (∀ p ∈ paths, IsPlainPath p) → parseDepfile (depfileText o paths) = paths := by
  intro h
  have houtput : ∀ c ∈ ascii "a#b.o", c ≠ chr '\n' ∧ c ≠ chr '\r' ∧ c ≠ chr '|' := by decide +kernel
  have hpaths : ∀ p ∈ [ascii "a.h"], IsPlainPath p := by
    intro p hp
    rw [List.mem_singleton.mp hp]
    exact ⟨by decide, List.all_eq_true.mp rfl⟩
  have hread := h _ houtput _ hpaths
  have hnone : parseDepfile (depfileText (ascii "a#b.o") [ascii "a.h"]) = [] := by decide +kernel
  rw [hnone] at hread
  exact absurd hread (by decide)

end Target

end Cob
