import Cob.Graph.DepfileScan

/-!
# The tokens of a dependency file

The loops of `parseDepfile` return for every content: each round of the main loop moves the
pointer, because `extractToken` leaves only a continuation behind it that was not there when the
token began.

* `extractToken_spec` — a token is taken, with no line end inside;
* `scanDepfile_inside` — the tokens of every content are increasing slices of it that end before
  the first line end that is not part of a continuation;
* `scanDepfile_refines` — decoded, they are what `parseDepfile` returns.
-/

namespace Cob

namespace DepfileScan

open Fueled

variable {content : Bytes} {fuel start ptr p q : ℕ} {c d : UInt8}

/-! ### Runs of backslashes -/

section Runs

/-- At the end of the file the whole run is taken. -/
theorem escaped_end (run k : ℕ) :
    Depfile.escaped run (List.replicate k (chr '\\')) = (List.replicate k (chr '\\'), []) := by
  induction k generalizing run with
  | zero => rfl
  | succ k ih =>
    rw [List.replicate_succ, Depfile.escaped.eq_def]
    cases k with
    | zero => rfl
    | succ k =>
      have hrest := ih (run + 1)
      rw [List.replicate_succ] at hrest ⊢
      simp only [if_true, hrest]
      rfl

/-- Before a line end the last backslash of an odd run is left. -/
theorem escaped_newline (run k : ℕ) (hc : isNewline c) (hrun : 0 < run + k) (s : Bytes) :
    Depfile.escaped run (List.replicate k (chr '\\') ++ c :: s) =
      if (run + k) % 2 = 1 ∧ 0 < k then
        (List.replicate (k - 1) (chr '\\'), chr '\\' :: c :: s)
      else (List.replicate k (chr '\\'), c :: s) := by
  have hline := isNewline_iff.mp hc
  have hne : c ≠ chr '\\' := by
    rintro rfl
    exact absurd hc (by decide)
  induction k generalizing run with
  | zero =>
    rw [Depfile.escaped.eq_def]
    simp [hne, hline, show 0 < run by omega]
  | succ k ih =>
    have hrest := ih (run + 1) (by omega)
    have hsum : run + 1 + k = run + (k + 1) := by omega
    rw [hsum] at hrest
    rw [List.replicate_succ, List.cons_append]
    cases k with
    | zero =>
      -- the last backslash of the run
      by_cases hodd : (run + 1) % 2 = 1
      · rw [if_pos ⟨hodd, Nat.one_pos⟩, List.replicate_zero, List.nil_append,
          Depfile.escaped.eq_def]
        simp [hline, hodd]
      · rw [if_neg fun h => hodd h.1, List.replicate_zero, List.nil_append,
          Depfile.escaped.eq_def]
        have hlast := hrest
        simp only [lt_self_iff_false, and_false, if_false, List.replicate_zero,
          List.nil_append] at hlast
        simp [hodd, hlast]
    | succ k =>
      have hslash : chr '\\' ≠ chr '\n' ∧ chr '\\' ≠ chr '\r' := by decide
      rw [List.replicate_succ, List.cons_append, Depfile.escaped_slash run hslash,
        ← List.cons_append, ← List.replicate_succ, hrest]
      split_ifs <;> first | rfl | omega

/-- A byte that ends tokens is not taken, unless it is quoted. -/
theorem escaped_unquoted (run : ℕ) (hline : ¬ (0 < run ∧ isNewline c)) (hslash : c ≠ chr '\\')
    (hquoted : ¬ (0 < run ∧ (c = chr '#' ∨ run % 2 = 1 ∧ (c = chr ' ' ∨ c = chr '\t'))))
    (hends : c ≤ chr ' ' ∨ c = chr '#') (s : Bytes) :
    Depfile.escaped run (c :: s) = ([], c :: s) := by
  rw [isNewline_iff] at hline
  rw [Depfile.escaped.eq_def]
  simp only [hslash, if_false, hline, hquoted, hends, if_true]

theorem mem_slice (hc : c ∈ slice content p q) : ∃ i, p ≤ i ∧ i < q ∧ content[i]? = some c := by
  obtain ⟨i, hi, rfl⟩ := List.mem_iff_getElem.mp hc
  have hlen : (slice content p q).length ≤ q - p := List.length_take_le _ _
  have hget : (slice content p q)[i]? = content[p + i]? := by
    rw [slice, List.getElem?_take_of_lt (by omega), List.getElem?_drop]
  refine ⟨p + i, Nat.le_add_right _ _, by omega, ?_⟩
  rw [← hget, List.getElem?_eq_getElem hi]

theorem length_slice (h : q ≤ content.length) : (slice content p q).length = q - p := by
  rw [slice, List.length_take, List.length_drop]
  omega

theorem slice_append_drop (h : p ≤ q) : slice content p q ++ content.drop q = content.drop p := by
  have hdrop : content.drop q = (content.drop p).drop (q - p) := by
    rw [List.drop_drop]
    congr 1
    omega
  rw [hdrop, slice, List.take_append_drop]

/-- A run of backslashes. -/
theorem slice_slashes (h : Scanned content (· = chr '\\') p q) :
    slice content p q = List.replicate (q - p) (chr '\\') := by
  refine List.eq_replicate_iff.mpr ⟨length_slice h.inside, fun c hc => ?_⟩
  obtain ⟨i, hp, hq, hi⟩ := mem_slice hc
  exact of_decide_eq_true (h.all i hp hq c hi)

end Runs

/-! ### Tokens -/

/-- The scanner has taken the bytes from `p` to `q` into a token. -/
structure Taken (content : Bytes) (p q : ℕ) : Prop where
  scanned : Scanned content (!isNewline ·) p q
  settled : content[q]? = some (chr '\\') → slashesBefore content q % 2 = 0

section Tokens

theorem Taken.trans (h : Taken content p q) {r : ℕ} (h' : Taken content q r) :
    Taken content p r := ⟨h.scanned.trans h'.scanned, h'.settled⟩

/-- No line end is passed inside a token. -/
theorem Taken.moved (h : Taken content p q) : Moved content p q where
  le := h.scanned.le
  inside := h.scanned.inside
  crossed := by
    rintro i hp hq ⟨c, hc, hline⟩
    have hnot := h.scanned.all i hp hq c hc
    rw [hline] at hnot
    exact Bool.noConfusion hnot
  settled := h.settled

/-- A byte that is no backslash is taken. -/
theorem Taken.single (hc : content[p]? = some c) (hline : ¬ isNewline c) (hslash : c ≠ chr '\\') :
    Taken content p (p + 1) where
  scanned := .single hc (by simpa using hline)
  settled := fun _ => by rw [slashesBefore_succ hc hslash]

/-- A run of backslashes is taken, or an even part of it. -/
theorem Taken.slashes (h : Scanned content (· = chr '\\') p q)
    (heven : slashesBefore content p % 2 = 0)
    (hq : content[q]? = some (chr '\\') → (q - p) % 2 = 0) : Taken content p q where
  scanned := h.mono fun c hc => by
    rw [of_decide_eq_true hc]
    rfl
  settled := by
    intro hslash
    have hall : ∀ i, p ≤ i → i < q → content[i]? = some (chr '\\') := by
      intro i hp hq
      have hlt : i < content.length := hq.trans_le h.inside
      have hget := List.getElem?_eq_getElem hlt
      rw [hget, of_decide_eq_true (h.all i hp hq _ hget)]
    have hsum := slashesBefore_add hall h.le
    have hpar := hq hslash
    omega

/-- The result of a round of the loop over escaped characters: more of the token was taken, or it
ends here. A single backslash of a continuation is nothing to take. -/
def EscapedPost (content : Bytes) (p : ℕ) : ℕ ⊕ ℕ → Prop :=
  Sum.elim
    (fun q => p < q ∧ Taken content p q ∧ Depfile.escaped 0 (content.drop p) =
      (Depfile.escaped 0 (content.drop q)).map (slice content p q ++ ·) id)
    fun q => Taken content p q ∧
      (p = q → content[p]? = some (chr '\\') → NewlineAt content (p + 1)) ∧
        Depfile.escaped 0 (content.drop p) = (slice content p q, content.drop q)

/-- What follows a run of backslashes. -/
theorem afterSlashes_spec (hrun : Scanned content (· = chr '\\') p q) (hpq : p < q)
    (hstop : ∀ c, content[q]? = some c → c ≠ chr '\\')
    (heven : slashesBefore content p % 2 = 0) :
    Returns (afterSlashes content p q) (EscapedPost content p) := by
  have hslice := slice_slashes hrun
  have hne : content[q]? ≠ some (chr '\\') := fun h => hstop _ h rfl
  have htaken : Taken content p q := .slashes hrun heven fun h => absurd h hne
  unfold afterSlashes
  split_ifs with hend
  · -- the run ends the file
    refine returns_pure ⟨htaken, fun h => absurd h hpq.ne, ?_⟩
    rw [← slice_append_drop hpq.le, hslice, hend, List.drop_length, List.append_nil, escaped_end]
  · have hlt : q < content.length := lt_of_le_of_ne hrun.inside hend
    obtain ⟨c, hc⟩ : ∃ c, content[q]? = some c := ⟨_, List.getElem?_eq_getElem hlt⟩
    have hdrop : content.drop p =
        List.replicate (q - p) (chr '\\') ++ c :: content.drop (q + 1) := by
      rw [← slice_append_drop hpq.le, hslice, ← drop_of_getElem? hc]
    have hcslash := hstop c hc
    rw [deref_bind hc]
    split_ifs with hline hodd hquoted
    · -- an odd run before a line end: the last backslash is left
      obtain ⟨r, rfl⟩ : ∃ r, q = r + 1 := ⟨q - 1, by omega⟩
      have hle : p ≤ r := Nat.le_of_lt_succ hpq
      have hbefore : Scanned content (· = chr '\\') p r :=
        ⟨hle, (Nat.le_succ r).trans hrun.inside,
          fun i hp hr => hrun.all i hp (Nat.lt_succ_of_lt hr)⟩
      have hlast : content[r]? = some (chr '\\') := by
        have hget := List.getElem?_eq_getElem (l := content) ((Nat.lt_succ_self r).trans hlt)
        rw [hget, of_decide_eq_true (hrun.all r hle (Nat.lt_succ_self r) _ hget)]
      refine returns_pure ⟨.slashes hbefore heven fun _ => by omega, ?_, ?_⟩
      · rintro rfl -
        exact ⟨c, hc, hline⟩
      · rw [hdrop, escaped_newline 0 _ hline (by omega), if_pos ⟨by omega, by omega⟩,
          slice_slashes hbefore, drop_of_getElem? hlast, drop_of_getElem? hc]
        congr 2
        omega
    · -- an even run before a line end: all of it is taken
      refine returns_pure ⟨htaken, fun h => absurd h hpq.ne, ?_⟩
      rw [hdrop, escaped_newline 0 _ hline (by omega), if_neg (by omega), hslice,
        drop_of_getElem? hc]
    · -- a quoted `#` or blank is taken with the run
      have hnext : Taken content q (q + 1) := .single hc hline hcslash
      have hquote : Depfile.escaped (0 + (q - p)) (c :: content.drop (q + 1)) =
          (Depfile.escaped 0 (content.drop (q + 1))).map (c :: ·) id := by
        rcases hquoted with rfl | ⟨hodd, hblank⟩
        · obtain ⟨k, hk⟩ : ∃ k, q - p = k + 1 := ⟨q - p - 1, by omega⟩
          rw [Nat.zero_add, hk, Depfile.escaped_hash]
        · exact Depfile.escaped_blank hblank (by omega) _
      refine returns_pure ⟨by omega, htaken.trans hnext, ?_⟩
      rw [hdrop, Depfile.escaped_replicate 0 _ (not_or.mp (isNewline_iff.not.mp hline)), hquote,
        ← slice_append hpq.le (Nat.le_succ q), hslice, slice_succ hc]
      simp only [List.append_assoc, List.singleton_append]
      rfl
    · -- what comes next is not quoted, so the run does not matter to it
      have hsame : Depfile.escaped (0 + (q - p)) (c :: content.drop (q + 1)) =
          Depfile.escaped 0 (c :: content.drop (q + 1)) := by
        by_cases hends : c ≤ chr ' ' ∨ c = chr '#'
        · rw [escaped_unquoted _ (fun h => hline h.2) hcslash _ hends,
            escaped_unquoted _ (fun h => hline h.2) hcslash (fun h => absurd h.1 (by omega)) hends]
          rintro ⟨-, hhash | ⟨hodd, hblank⟩⟩
          · exact hquoted (.inl hhash)
          · exact hquoted (.inr ⟨by omega, hblank⟩)
        · obtain ⟨hle, hhash⟩ := not_or.mp hends
          rw [Depfile.escaped_plain _ hcslash hhash hle, Depfile.escaped_plain _ hcslash hhash hle]
      refine returns_pure ⟨hpq, htaken, ?_⟩
      rw [hdrop, Depfile.escaped_replicate 0 _ (not_or.mp (isNewline_iff.not.mp hline)), hsame,
        hslice, drop_of_getElem? hc]

/-- A round of the loop over escaped characters takes a byte, or a run of backslashes with what
they quote; the loop is left where the token ends. -/
theorem escapedRound_spec (hptr : p ≤ content.length)
    (heven : content[p]? = some (chr '\\') → slashesBefore content p % 2 = 0)
    (hfuel : content.length - p < fuel) :
    Returns (escapedRound fuel content p) (EscapedPost content p) := by
  unfold escapedRound
  split_ifs with hlt
  · obtain ⟨c, hc⟩ : ∃ c, content[p]? = some c := ⟨_, List.getElem?_eq_getElem hlt⟩
    rw [deref_bind hc]
    have hdrop := drop_of_getElem? hc
    split_ifs with hslash hends
    · subst hslash
      refine (returns_scan (· = chr '\\') hptr hfuel).bind fun q hq => ?_
      obtain ⟨hrun, hstop⟩ := hq
      have hpq : p < q := by
        refine lt_of_le_of_ne hrun.le ?_
        rintro rfl
        simpa using hstop _ hc
      exact afterSlashes_spec hrun hpq (fun d hd => by simpa using hstop d hd) (heven hc)
    · -- a blank or a hash ends the token
      refine returns_pure ⟨⟨.refl hptr, heven⟩, fun _ h => ?_, ?_⟩
      · exact absurd (Option.some.inj (hc.symm.trans h)) hslash
      · rw [hdrop, slice_self]
        exact escaped_unquoted 0 (fun h => absurd h.1 (by omega)) hslash
          (fun h => absurd h.1 (by omega)) hends _
    · obtain ⟨hle, hhash⟩ := not_or.mp hends
      have hline : ¬ isNewline c := by
        intro h
        rcases isNewline_iff.mp h with rfl | rfl <;> exact hle (by decide)
      refine returns_pure ⟨Nat.lt_succ_self p, .single hc hline hslash, ?_⟩
      rw [hdrop, Depfile.escaped_plain 0 hslash hhash hle, slice_succ hc]
      rfl
  · have hend := Nat.le_of_not_lt hlt
    have hnone : content[p]? = none := List.getElem?_eq_none hend
    refine returns_pure ⟨⟨.refl hptr, heven⟩, fun _ h => ?_, ?_⟩
    · rw [hnone] at h
      exact nomatch h
    · rw [List.drop_eq_nil_of_le hend, slice_self]
      rfl

/-- A byte that belongs to the first part of a token. -/
def isUnescaped (c : UInt8) : Bool := !Depfile.isSpecial c || c = chr '$'

/-- The first part of a token is the longest one of such bytes. -/
theorem takeWhile_drop (h : Scanned content isUnescaped p q)
    (hstop : ∀ c, content[q]? = some c → isUnescaped c = false) :
    (content.drop p).takeWhile isUnescaped = slice content p q := by
  have hall : ∀ c ∈ slice content p q, isUnescaped c = true := by
    intro c hc
    obtain ⟨i, hp, hq, hi⟩ := mem_slice hc
    exact h.all i hp hq c hi
  rw [← slice_append_drop h.le, List.takeWhile_append_of_pos hall]
  cases hc : content[q]? with
  | none => rw [List.drop_eq_nil_of_le (List.getElem?_eq_none_iff.mp hc)]; simp
  | some c =>
    rw [drop_of_getElem? hc, List.takeWhile_cons, hstop c hc]
    simp

/-- The bytes that `findTokenSpecial` passes have no dollar among them. -/
theorem not_contains_dollar (h : Scanned content (!Depfile.isSpecial ·) p q) :
    (slice content p q).contains (chr '$') = false := by
  rw [List.contains_eq_mem, decide_eq_false_iff_not]
  intro hmem
  obtain ⟨i, hp, hq, hi⟩ := mem_slice hmem
  exact absurd (h.all i hp hq _ hi) (by decide)

/-- The loop over dollars takes the first part of a token. -/
theorem dollars_spec (h : Scanned content (!Depfile.isSpecial ·) start p)
    (hspecial : ∀ c, content[p]? = some c → Depfile.isSpecial c)
    (hfuel : content.length < fuel) :
    Returns (loop (dollarRound fuel content) fuel (p, false)) fun r =>
      Scanned content isUnescaped start r.1 ∧
        (∀ c, content[r.1]? = some c → Depfile.isSpecial c ∧ c ≠ chr '$') ∧
          r.2 = (slice content start r.1).contains (chr '$') := by
  have hweaken : ∀ c, (!Depfile.isSpecial c) = true → isUnescaped c = true := by
    intro c hc
    rw [isUnescaped, hc, Bool.true_or]
  -- each round passes one dollar and the plain bytes behind it
  refine returns_loop
    (fun s => Scanned content isUnescaped start s.1 ∧
      (∀ c, content[s.1]? = some c → Depfile.isSpecial c) ∧
        s.2 = (slice content start s.1).contains (chr '$'))
    (fun s => content.length - s.1) ?_ ⟨h.mono hweaken, hspecial, (not_contains_dollar h).symm⟩
    (by omega)
  rintro ⟨p, needsDecode⟩ ⟨hscanned, hspecial, hdecode⟩
  dsimp only at hscanned hspecial hdecode
  rw [dollarRound, holdsAt_bind]
  split_ifs with htest
  · obtain ⟨c, hc, hdollar⟩ := (Option.any_eq_true _ _).mp htest
    obtain rfl := of_decide_eq_true hdollar
    have hlt := lt_of_getElem? hc
    refine (findTokenSpecial_spec hlt (by omega)).bind fun q hq => ?_
    obtain ⟨hrest, hspecial'⟩ := hq
    have hle := hrest.le
    have hnext : Scanned content isUnescaped p q :=
      (Scanned.single hc (by decide)).trans (hrest.mono hweaken)
    refine returns_pure ⟨⟨hscanned.trans hnext, hspecial', ?_⟩, ?_⟩
    · dsimp only
      rw [← slice_append hscanned.le hnext.le, ← slice_append (Nat.le_succ p) hrest.le,
        slice_succ hc]
      simp
    · dsimp only
      omega
  · refine returns_pure ⟨hscanned, fun c hc => ⟨hspecial c hc, ?_⟩, hdecode⟩
    rintro rfl
    exact htest ((Option.any_eq_true _ _).mpr ⟨_, hc, decide_eq_true rfl⟩)

/-- The loop over escaped characters takes the rest of a token. -/
theorem escapedLoop_spec (hptr : p ≤ content.length)
    (heven : content[p]? = some (chr '\\') → slashesBefore content p % 2 = 0)
    (hfuel : content.length < fuel) :
    Returns (loop (escapedRound fuel content) fuel p) fun q => Taken content p q ∧
      (p = q → content[p]? = some (chr '\\') → NewlineAt content (p + 1)) ∧
        Depfile.escaped 0 (content.drop p) = (slice content p q, content.drop q) := by
  -- what has been taken so far goes in front of what the reader takes from here
  refine returns_loop
    (fun r => Taken content p r ∧ Depfile.escaped 0 (content.drop p) =
      (Depfile.escaped 0 (content.drop r)).map (slice content p r ++ ·) id)
    (fun r => content.length - r) ?_ ⟨⟨.refl hptr, heven⟩, ?_⟩ (by omega)
  · rintro r ⟨htaken, htoken⟩
    have hle := htaken.scanned.le
    refine (escapedRound_spec htaken.scanned.inside htaken.settled (by omega)).mono ?_
    rintro (q | q) ⟨h, h'⟩
    · obtain ⟨hnext, heq⟩ := h'
      have hinside := hnext.scanned.inside
      refine ⟨⟨htaken.trans hnext, ?_⟩, by omega⟩
      rw [htoken, heq, ← slice_append hle h.le, Prod.map_map]
      simp only [Function.comp_def, List.append_assoc, id_eq]
      rfl
    · obtain ⟨hempty, heq⟩ := h'
      refine ⟨htaken.trans h, ?_, ?_⟩
      · rintro rfl
        obtain rfl : r = p := le_antisymm h.scanned.le hle
        exact hempty rfl
      · rw [htoken, heq, Prod.map_apply, slice_append hle h.scanned.le]
        rfl
  · rw [slice_self]
    rfl

/-- The first part of a token is taken. -/
theorem Scanned.taken (h : Scanned content isUnescaped start p)
    (heven : content[start]? = some (chr '\\') → slashesBefore content start % 2 = 0) :
    Taken content start p where
  scanned := by
    refine h.mono fun c hc => ?_
    rw [Bool.not_eq_true', ← Bool.not_eq_true]
    intro hline
    rcases isNewline_iff.mp hline with rfl | rfl <;> exact absurd hc (by decide)
  settled := by
    rcases h.le.eq_or_lt with rfl | hlt
    · exact heven
    · obtain ⟨r, rfl⟩ : ∃ r, p = r + 1 := ⟨p - 1, by omega⟩
      obtain ⟨d, hd⟩ : ∃ d, content[r]? = some d :=
        ⟨_, List.getElem?_eq_getElem (Nat.lt_of_succ_le h.inside)⟩
      have hne : d ≠ chr '\\' := by
        rintro rfl
        exact absurd (h.all r (Nat.le_of_lt_succ hlt) (Nat.lt_succ_self r) _ hd) (by decide)
      exact fun _ => by rw [slashesBefore_succ hd hne]

/-- What `extractToken` makes of the first part of a token. -/
theorem extractToken_drop (h : Scanned content isUnescaped start p)
    (hspecial : ∀ c, content[p]? = some c → Depfile.isSpecial c ∧ c ≠ chr '$') :
    Depfile.extractToken (content.drop start) =
      if content[p]? = some (chr '\\') then
        (slice content start p ++ (Depfile.escaped 0 (content.drop p)).1, true,
          (Depfile.escaped 0 (content.drop p)).2)
      else (slice content start p, (slice content start p).contains (chr '$'), content.drop p) := by
  have hplain : (content.drop start).takeWhile (fun c => !Depfile.isSpecial c || c = chr '$') =
      slice content start p := takeWhile_drop h fun c hc => by
    obtain ⟨hspec, hdollar⟩ := hspecial c hc
    simp [isUnescaped, hspec, hdollar]
  have hlen : start + (p - start) = p := by
    have hle := h.le
    omega
  rw [Depfile.extractToken, hplain, length_slice h.inside, List.drop_drop, hlen, List.head?_drop]

/-- `extractToken` takes a byte at least where `skipWhitespace` stays. -/
theorem extractToken_spec (hc : content[start]? = some c) (hstays : Stays content start)
    (hrule : ¬ (isNewline c ∨ c = chr '#'))
    (heven : content[start]? = some (chr '\\') → slashesBefore content start % 2 = 0)
    (hfuel : content.length < fuel) :
    Returns (extractToken fuel content start) fun r =>
      start < r.1 ∧ Taken content start r.1 ∧
        Depfile.extractToken (content.drop start) =
          (slice content start r.1, r.2, content.drop r.1) := by
  have hlt := lt_of_getElem? hc
  obtain ⟨hline, hhash⟩ := not_or.mp hrule
  obtain ⟨hlow, hnext⟩ := (hstays c hc).resolve_left hline
  refine (findTokenSpecial_spec hlt.le (by omega)).bind fun p₀ hp₀ => ?_
  refine (dollars_spec hp₀.1 hp₀.2 hfuel).bind fun r hr => ?_
  obtain ⟨p, needsDecode⟩ := r
  obtain ⟨hscanned, hspecial, hdecode⟩ := hr
  dsimp only at hscanned hspecial hdecode ⊢
  have htaken := hscanned.taken heven
  rw [holdsAt_bind]
  split_ifs with htest
  · obtain ⟨d, hd, hslash⟩ := (Option.any_eq_true _ _).mp htest
    obtain rfl := of_decide_eq_true hslash
    refine (escapedLoop_spec hscanned.inside htaken.settled hfuel).bind fun q hq => ?_
    obtain ⟨hrest, hempty, htoken⟩ := hq
    refine returns_pure ⟨?_, htaken.trans hrest, ?_⟩
    · -- a token that begins with a backslash does not begin with a continuation
      refine lt_of_le_of_ne (hscanned.le.trans hrest.scanned.le) fun heq => ?_
      dsimp only at heq
      obtain rfl : start = p := le_antisymm hscanned.le (heq ▸ hrest.scanned.le)
      exact hnext (Option.some.inj (hc.symm.trans hd)) (hempty heq hd)
    · rw [extractToken_drop hscanned hspecial, if_pos hd, htoken,
        slice_append hscanned.le hrest.scanned.le]
  · have hnot : content[p]? ≠ some (chr '\\') := fun h =>
      htest ((Option.any_eq_true _ _).mpr ⟨_, h, decide_eq_true rfl⟩)
    refine returns_pure ⟨?_, htaken, ?_⟩
    · refine lt_of_le_of_ne hscanned.le fun heq => ?_
      dsimp only at heq
      obtain rfl := heq
      obtain ⟨hspec, hdollar⟩ := hspecial c hc
      have hslash : c ≠ chr '\\' := fun h => hnot (h ▸ hc)
      simp [Depfile.isSpecial, hdollar, hslash, hhash, UInt8.not_le.mpr hlow] at hspec
    · rw [extractToken_drop hscanned hspecial, if_neg hnot, hdecode]

end Tokens

/-! ### The rule -/

section Rule

variable {targetStart : ℕ} {s : Bytes}

/-! The cases of the target scan. -/

theorem skipTargets_none {col : ℕ} (h : isNewline c ∨ c = chr '#') :
    Depfile.skipTargets col (c :: s) = none := by
  rw [isNewline_iff, or_assoc] at h
  rw [Depfile.skipTargets.eq_def]
  exact if_pos h

theorem skipTargets_escaped {col : ℕ} (d : UInt8) (s : Bytes) :
    Depfile.skipTargets col (chr '\\' :: d :: s) =
      if d = chr '\r' ∧ s.head? = some (chr '\n') then Depfile.skipTargets (col + 3) s.tail
      else Depfile.skipTargets (col + 2) s := by
  have hne : ¬ (chr '\\' = chr '\n' ∨ chr '\\' = chr '\r' ∨ chr '\\' = chr '#') := by decide
  cases s with
  | nil =>
    rw [Depfile.skipTargets.eq_def]
    simp [hne, Depfile.skipTargets]
  | cons e s =>
    rw [Depfile.skipTargets.eq_def]
    simp [hne]

theorem skipTargets_colon {col : ℕ} (s : Bytes) :
    Depfile.skipTargets col (chr ':' :: s) =
      if col = 1 ∧ (s.head? = some (chr '/') ∨ s.head? = some (chr '\\')) then
        Depfile.skipTargets (col + 1) s
      else some s := by
  have hne : ¬ (chr ':' = chr '\n' ∨ chr ':' = chr '\r' ∨ chr ':' = chr '#') := by decide
  have hslash : chr ':' ≠ chr '\\' := by decide
  cases s with
  | nil =>
    rw [Depfile.skipTargets.eq_def]
    simp [hne]
  | cons d s =>
    rw [Depfile.skipTargets.eq_def]
    simp only [hne, hslash, if_false, if_true, List.head?_cons, Option.some.injEq]

theorem skipTargets_other {col : ℕ} (hrule : ¬ (isNewline c ∨ c = chr '#')) (hcolon : c ≠ chr ':')
    (hslash : c = chr '\\' → s = []) :
    Depfile.skipTargets col (c :: s) =
      Depfile.skipTargets (if c = chr ' ' ∨ c = chr '\t' then 0 else col + 1) s := by
  rw [isNewline_iff, or_assoc] at hrule
  cases s with
  | nil =>
    rw [Depfile.skipTargets.eq_def]
    simp only [hrule, if_false, Depfile.skipTargets]
  | cons d s =>
    have hne : c ≠ chr '\\' := fun h => List.cons_ne_nil d s (hslash h)
    rw [Depfile.skipTargets.eq_def]
    simp only [hrule, hne, hcolon, if_false]
    split_ifs <;> rfl

theorem any_eq_iff : (content[ptr]?.any (· = c)) = true ↔ content[ptr]? = some c := by
  cases content[ptr]? <;> simp

/-- Where the target scan may stop: an even number of backslashes is before. -/
structure Separated (content : Bytes) (sep : ℕ) : Prop where
  inside : sep ≤ content.length
  settled : content[sep]? = some (chr '\\') → slashesBefore content sep % 2 = 0

/-- A round of the target scan. -/
theorem targetRound_spec (hptr : ptr ≤ content.length) (hstart : targetStart ≤ ptr) :
    Returns (targetRound content (ptr, targetStart)) (Sum.elim
      (fun s => (ptr < s.1 ∧ s.1 ≤ content.length ∧ s.2 ≤ s.1) ∧
        Depfile.skipTargets (ptr - targetStart) (content.drop ptr) =
          Depfile.skipTargets (s.1 - s.2) (content.drop s.1))
      fun sep => (∀ q, sep = some q → Separated content q) ∧
        Depfile.skipTargets (ptr - targetStart) (content.drop ptr) = sep.map (content.drop ·)) := by
  unfold targetRound
  dsimp only
  -- the tests of the round in the order of the source, each beside the equation of the reader
  by_cases hlt : ptr < content.length
  · obtain ⟨c, hc⟩ : ∃ c, content[ptr]? = some c := ⟨_, List.getElem?_eq_getElem hlt⟩
    rw [if_pos hlt, deref_bind hc, drop_of_getElem? hc]
    by_cases hrule : isNewline c ∨ c = chr '#'
    -- a line end or a comment: the line has no colon, and is no rule
    · rw [if_pos hrule]
      refine returns_pure ⟨nofun, ?_⟩
      rw [skipTargets_none hrule]
      rfl
    rw [if_neg hrule]
    by_cases hslash : c = chr '\\' ∧ ptr + 1 < content.length
    · -- an escaped byte, or an escaped line end
      obtain ⟨rfl, hlt'⟩ := hslash
      obtain ⟨d, hd⟩ : ∃ d, content[ptr + 1]? = some d := ⟨_, List.getElem?_eq_getElem hlt'⟩
      rw [if_pos ⟨rfl, hlt'⟩, deref_bind hd, drop_of_getElem? hd, skipTargets_escaped,
        List.head?_drop, List.tail_drop]
      rw [thenHoldsAt_bind]
      by_cases hcrlf : d = chr '\r' ∧ content[ptr + 1 + 1]? = some (chr '\n')
      · have hlt'' := lt_of_getElem? hcrlf.2
        have hcol : ptr - targetStart + 3 = ptr + 1 + 1 + 1 - targetStart := by omega
        rw [if_pos hcrlf, hcol, decide_eq_true hcrlf.1, any_eq_iff.mpr hcrlf.2, Bool.and_self,
          if_pos rfl]
        exact returns_pure ⟨⟨by dsimp only; omega, hlt'', by dsimp only; omega⟩, rfl⟩
      · have hcol : ptr - targetStart + 2 = ptr + 1 + 1 - targetStart := by omega
        rw [if_neg hcrlf, hcol, if_neg]
        · exact returns_pure ⟨⟨by dsimp only; omega, hlt', by dsimp only; omega⟩, rfl⟩
        · rwa [Bool.and_eq_true, decide_eq_true_eq, any_eq_iff]
    rw [if_neg hslash]
    by_cases hcolon : c = chr ':'
    · subst hcolon
      rw [if_pos rfl, skipTargets_colon, List.head?_drop, thenHoldsAt_bind]
      have hsettled : Separated content (ptr + 1) :=
        ⟨hlt, fun _ => by rw [slashesBefore_succ hc (by decide)]⟩
      have htest : (decide (ptr = targetStart + 1) &&
          content[ptr + 1]?.any fun d => d = chr '/' || d = chr '\\') = true ↔
            ptr - targetStart = 1 ∧
              (content[ptr + 1]? = some (chr '/') ∨ content[ptr + 1]? = some (chr '\\')) := by
        have hone : ptr = targetStart + 1 ↔ ptr - targetStart = 1 := by omega
        rw [Bool.and_eq_true, decide_eq_true_eq, hone]
        cases content[ptr + 1]? <;> simp
      by_cases hdrive : ptr - targetStart = 1 ∧
          (content[ptr + 1]? = some (chr '/') ∨ content[ptr + 1]? = some (chr '\\'))
      · -- a drive letter keeps its colon
        have hcol : ptr - targetStart + 1 = ptr + 1 - targetStart := by omega
        rw [if_pos hdrive, if_pos (htest.mpr hdrive), hcol]
        exact returns_pure ⟨⟨Nat.lt_succ_self ptr, hlt, by dsimp only; omega⟩, rfl⟩
      · -- the separator: the scan stops behind it
        rw [if_neg hdrive, if_neg (htest.not.mpr hdrive)]
        refine returns_pure ⟨?_, rfl⟩
        rintro q ⟨⟩
        exact hsettled
    · have hlast : c = chr '\\' → content.drop (ptr + 1) = [] := fun h =>
        List.drop_eq_nil_of_le (Nat.le_of_not_lt fun hlt' => hslash ⟨h, hlt'⟩)
      rw [if_neg hcolon, skipTargets_other hrule hcolon hlast]
      refine returns_pure ⟨⟨Nat.lt_succ_self ptr, hlt, ?_⟩, ?_⟩
      · dsimp only
        split_ifs <;> omega
      · dsimp only
        congr 1
        split_ifs <;> omega
  · have hend := Nat.le_of_not_lt hlt
    have hnone : content[ptr]? = none := List.getElem?_eq_none hend
    rw [if_neg hlt]
    refine returns_pure ⟨?_, ?_⟩
    · rintro q ⟨⟩
      refine ⟨hptr, fun h => ?_⟩
      rw [hnone] at h
      exact nomatch h
    · rw [List.drop_eq_nil_of_le hend, Depfile.skipTargets, Option.map_some,
        List.drop_eq_nil_of_le hend]

/-- The target scan stops at the end of the file or behind the separator. -/
theorem targetScan_spec (content : Bytes) :
    Returns (targetScan content) fun sep => (∀ q, sep = some q → Separated content q) ∧
      Depfile.skipTargets 0 content = sep.map (content.drop ·) := by
  refine returns_loop
    (fun s => (s.1 ≤ content.length ∧ s.2 ≤ s.1) ∧
      Depfile.skipTargets 0 content = Depfile.skipTargets (s.1 - s.2) (content.drop s.1))
    (fun s => content.length - s.1) ?_ ⟨⟨Nat.zero_le _, le_rfl⟩, rfl⟩ (Nat.lt_succ_self _)
  rintro ⟨ptr, targetStart⟩ ⟨⟨hptr, hstart⟩, heq⟩
  refine (targetRound_spec hptr hstart).mono ?_
  rintro (s | sep) ⟨h, h'⟩
  · exact ⟨⟨⟨h.2.1, h.2.2⟩, heq.trans h'⟩, by dsimp only; omega⟩
  · exact ⟨h, heq.trans h'⟩

/-- The bytes of a token. -/
def Token.text (content : Bytes) (t : Token) : Bytes := slice content t.start t.stop

/-- What `parseDepfile` hands to its callback for a token. -/
def Token.decode (content : Bytes) (t : Token) : Bytes :=
  Depfile.decodeDepfileToken (t.text content) t.needsDecode

/-- The tokens are slices between `p` and `q`, one after the other. -/
structure InOrder (p q : ℕ) (tokens : List Token) : Prop where
  within : ∀ t ∈ tokens, p ≤ t.start ∧ t.start < t.stop ∧ t.stop ≤ q
  pairwise : tokens.Pairwise fun t u => t.stop ≤ u.start

theorem InOrder.append {tokens : List Token} {t : Token} {r : ℕ} (h : InOrder p q tokens)
    (hpq : p ≤ q) (hq : q ≤ t.start) (hlt : t.start < t.stop) (hr : t.stop ≤ r) :
    InOrder p r (tokens ++ [t]) := by
  constructor
  · intro u hu
    rcases List.mem_append.mp hu with hu | hu
    · obtain ⟨hstart, hne, hstop⟩ := h.within u hu
      exact ⟨hstart, hne, by omega⟩
    · obtain rfl := List.mem_singleton.mp hu
      exact ⟨by omega, hlt, hr⟩
  · refine List.pairwise_append.mpr ⟨h.pairwise, List.pairwise_singleton _ _, ?_⟩
    intro u hu v hv
    obtain rfl := List.mem_singleton.mp hv
    exact (h.within u hu).2.2.trans hq

/-- What holds before each round of the main loop, which began at `sep`. -/
structure MainInv (content : Bytes) (sep : ℕ) (s : ℕ × List Token) : Prop where
  moved : Moved content sep s.1
  inOrder : InOrder sep s.1 s.2
  /-- The reader without pointers has read the same tokens. -/
  read : ∃ rounds, content.length - s.1 ≤ rounds ∧
    Depfile.prerequisites (content.length - sep) (content.drop sep) =
      s.2.map (Token.decode content) ++ Depfile.prerequisites rounds (content.drop s.1)

/-- A round of the main loop takes one token, or ends the rule. -/
theorem tokenRound_spec {sep : ℕ} {tokens : List Token} (h : MainInv content sep (ptr, tokens)) :
    Returns (tokenRound content (ptr, tokens)) (Sum.elim
      (fun s => MainInv content sep s ∧ content.length - s.1 < content.length - ptr)
      fun result => Moved content sep ptr ∧ InOrder sep ptr result ∧
        Depfile.prerequisites (content.length - sep) (content.drop sep) =
          result.map (Token.decode content)) := by
  obtain ⟨hmoved, horder, rounds, hrounds, hread⟩ := h
  dsimp only at hmoved horder hrounds hread
  unfold tokenRound
  dsimp only
  split_ifs with hlt
  · -- the loop invariant leaves the reader at least one round
    obtain ⟨rounds, rfl⟩ : ∃ r, rounds = r + 1 := ⟨rounds - 1, by omega⟩
    have hspace := skipWhitespace_spec (content.length + 1) hmoved.inside hmoved.settled
      (by omega)
    refine hspace.bind fun q hq => ?_
    obtain ⟨hblanks, hstays, hskip⟩ := hq
    have hq := hmoved.trans hblanks
    rw [holdsAt_bind]
    split_ifs with hrule
    · -- a token
      obtain ⟨c, hc, htest⟩ := (Option.any_eq_true _ _).mp hrule
      have hrule' : ¬ (isNewline c ∨ c = chr '#') := by simpa using htest
      have hline : ¬ (c = chr '\n' ∨ c = chr '\r' ∨ c = chr '#') := by
        rwa [isNewline_iff, or_assoc] at hrule'
      have hextract := extractToken_spec hc hstays hrule' hq.settled (Nat.lt_succ_self _)
      refine hextract.bind fun r hr => ?_
      obtain ⟨stop, needsDecode⟩ := r
      obtain ⟨hlt', htaken, htoken⟩ := hr
      dsimp only at hlt' htaken htoken ⊢
      have hinside := htaken.scanned.inside
      have hge := hblanks.le
      rw [if_neg (show stop ≠ q by omega)]
      have hne : slice content q stop ≠ [] := by
        rw [← List.length_pos_iff, length_slice hinside]
        omega
      refine returns_pure ⟨⟨hq.trans htaken.moved, ?_, rounds, by dsimp only; omega, ?_⟩, ?_⟩
      · exact horder.append hmoved.le hge hlt' le_rfl
      · -- the reader without pointers takes the same token
        rw [drop_of_getElem? hc] at hskip htoken
        rw [hread, Depfile.prerequisites, hskip]
        dsimp only
        rw [if_neg hline, htoken]
        dsimp only
        rw [if_neg hne, List.map_append, List.append_assoc]
        rfl
      · dsimp only
        omega
    · -- a line end, a comment or the end of the file: the rule is over
      refine returns_pure ⟨hmoved, horder, ?_⟩
      rw [hread, Depfile.prerequisites, hskip]
      cases hc : content[q]? with
      | none =>
        rw [List.drop_eq_nil_of_le (List.getElem?_eq_none_iff.mp hc)]
        exact List.append_nil _
      | some c =>
        have hline : c = chr '\n' ∨ c = chr '\r' ∨ c = chr '#' := by
          rw [hc, Option.any_some] at hrule
          rw [← or_assoc, ← isNewline_iff]
          by_contra hnot
          exact hrule (by simpa using hnot)
        rw [drop_of_getElem? hc]
        dsimp only
        rw [if_pos hline, List.append_nil]
  · -- nothing is left to read
    refine returns_pure ⟨hmoved, horder, ?_⟩
    rw [hread, List.drop_eq_nil_of_le (Nat.le_of_not_lt hlt)]
    cases rounds <;> exact List.append_nil _

/-- The main loop ends. -/
theorem mainLoop_spec {sep : ℕ} (hsep : Separated content sep) :
    Returns (loop (tokenRound content) (content.length + 1) (sep, [])) fun result =>
      (∃ p, Moved content sep p ∧ InOrder sep p result) ∧
        Depfile.prerequisites (content.length - sep) (content.drop sep) =
          result.map (Token.decode content) := by
  have hstart : Moved content sep sep :=
    ⟨le_rfl, hsep.inside, fun i hle hlt => absurd hlt (Nat.not_lt.mpr hle), hsep.settled⟩
  refine returns_loop (MainInv content sep) (fun s => content.length - s.1) ?_
    ⟨hstart, ⟨nofun, .nil⟩, _, le_rfl, rfl⟩ (by dsimp only; omega)
  rintro ⟨ptr, tokens⟩ h
  refine (tokenRound_spec h).mono ?_
  rintro (s | result) h'
  · exact h'
  · obtain ⟨hmoved, horder, hread⟩ := h'
    exact ⟨⟨ptr, hmoved, horder⟩, hread⟩

end Rule

/-- A scan returns tokens behind the separator, and decoded they are what the reader without
pointers returns. -/
theorem scanDepfile_spec (content : Bytes) :
    ∃ sep tokens, targetScan content = .ok sep ∧ scanDepfile content = .ok tokens ∧
      (sep = none → tokens = []) ∧
      (∀ p, sep = some p → ∃ q, Moved content p q ∧ InOrder p q tokens) ∧
      parseDepfile content = tokens.map (Token.decode content) := by
  obtain ⟨sep, hscan, hsettled, htargets⟩ := targetScan_spec content
  unfold scanDepfile parseDepfile
  rw [htargets, hscan]
  by_cases hempty : content = []
  · subst hempty
    obtain rfl : sep = some 0 := Except.ok.inj (hscan.symm.trans rfl)
    refine ⟨_, _, rfl, if_pos rfl, nofun, ?_, rfl⟩
    rintro p ⟨⟩
    exact ⟨0, ⟨le_rfl, le_rfl, fun i _ hlt => absurd hlt (Nat.not_lt_zero i), nofun⟩, nofun, .nil⟩
  · rw [if_neg hempty]
    cases sep with
    | none => exact ⟨_, _, rfl, rfl, fun _ => rfl, nofun, rfl⟩
    | some p =>
      -- the main loop begins where the target scan stopped
      obtain ⟨tokens, hloop, hmoved, hread⟩ := mainLoop_spec (hsettled p rfl)
      refine ⟨_, tokens, rfl, hloop, nofun, ?_, ?_⟩
      · rintro r ⟨⟩
        exact hmoved
      · rw [← hread, Option.map_some, ← List.length_drop]

/-- The two models of `parseDepfile` agree. -/
theorem scanDepfile_refines (content : Bytes) :
    ∃ tokens, scanDepfile content = .ok tokens ∧
      parseDepfile content = tokens.map (Token.decode content) := by
  obtain ⟨_, tokens, -, hscan, -, -, hread⟩ := scanDepfile_spec content
  exact ⟨tokens, hscan, hread⟩

/-- Every scan returns: it reads no byte outside the file, and its loops end within a round more
than there are bytes. The tokens are slices that are not empty, one after the other; they begin
behind the target separator, and end before the first line end there that is not part of a
continuation. -/
theorem scanDepfile_inside (content : Bytes) :
    ∃ sep tokens, targetScan content = .ok sep ∧ scanDepfile content = .ok tokens ∧
      (∀ t ∈ tokens, t.start < t.stop ∧ t.stop ≤ content.length) ∧
      tokens.Pairwise (fun t u => t.stop ≤ u.start) ∧
      (sep = none → tokens = []) ∧
      ∀ p, sep = some p → ∀ t ∈ tokens,
        p ≤ t.start ∧ ∀ i, p ≤ i → LineEnd content i → t.stop ≤ i := by
  obtain ⟨sep, tokens, hsep, hscan, hnone, hsome, -⟩ := scanDepfile_spec content
  refine ⟨sep, tokens, hsep, hscan, ?_, ?_, hnone, ?_⟩
  · cases sep with
    | none =>
      rw [hnone rfl]
      exact nofun
    | some p =>
      obtain ⟨q, hmoved, horder⟩ := hsome p rfl
      intro t ht
      obtain ⟨-, hlt, hstop⟩ := horder.within t ht
      exact ⟨hlt, hstop.trans hmoved.inside⟩
  · cases sep with
    | none =>
      rw [hnone rfl]
      exact .nil
    | some p => exact (hsome p rfl).choose_spec.2.pairwise
  · intro p hp t ht
    obtain ⟨q, hmoved, horder⟩ := hsome p hp
    obtain ⟨hstart, -, hstop⟩ := horder.within t ht
    refine ⟨hstart, fun i hi hend => ?_⟩
    -- the scanner never crossed such a line end
    by_contra hlt
    exact hend.notContinued (hmoved.crossed i hi (by omega) hend.newline)

end DepfileScan

end Cob
