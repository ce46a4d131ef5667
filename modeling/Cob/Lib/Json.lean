import Mathlib.Data.List.TakeWhile

/-!
# JSON texts

A decoder for JSON texts over bytes, for values made of strings, arrays and objects. In a string,
bytes from 0x20 on stand for themselves, other than the quote and the backslash.

* `decode` — the value of a text;
* `stringRest` — the bytes of a string, with its escapes undone;
* `Reads` — an item is read from the front of every text that begins with it, with rules for
  blanks, strings, lists between brackets and members of objects.
-/

namespace Json

/-- A text. -/
abbrev Text := List UInt8

/-- The values. -/
inductive Value where
  | string (s : Text)
  | array (items : List Value)
  | object (members : List (Text × Value))

/-- `"`. -/
def quote : UInt8 := 0x22

/-- `\`. -/
def backslash : UInt8 := 0x5c

/-- `,`. -/
def comma : UInt8 := 0x2c

/-- `:`. -/
def colon : UInt8 := 0x3a

/-! ### Strings -/

/-- The value of a hexadecimal digit. -/
def hexValue (c : UInt8) : Option ℕ :=
  if 0x30 ≤ c ∧ c ≤ 0x39 then some (c.toNat - 0x30)
  else if 0x61 ≤ c ∧ c ≤ 0x66 then some (c.toNat - 0x61 + 10)
  else if 0x41 ≤ c ∧ c ≤ 0x46 then some (c.toNat - 0x41 + 10)
  else none

/-- The byte of a code point given by four digits, none when it takes more than one byte. -/
def codeByte (h₁ h₂ h₃ h₄ : UInt8) : Option UInt8 := do
  let n := (((← hexValue h₁) * 16 + (← hexValue h₂)) * 16 + (← hexValue h₃)) * 16 + (← hexValue h₄)
  if n < 0x80 then some (UInt8.ofNat n) else none

/-- The byte of an escape of one letter. -/
def letterByte (c : UInt8) : Option UInt8 :=
  if c = quote ∨ c = backslash ∨ c = 0x2f then some c
  else if c = 0x62 then some 0x08
  else if c = 0x66 then some 0x0c
  else if c = 0x6e then some 0x0a
  else if c = 0x72 then some 0x0d
  else if c = 0x74 then some 0x09
  else none

/-- The bytes of a string up to the closing quote, and what follows it. -/
def stringRest : Text → Option (Text × Text)
  | [] => none
  | c :: s =>
    if c = quote then some ([], s)
    else if c = backslash then
      match s with
      | [] => none
      | e :: s =>
        if e = 0x75 then
          match s with
          | h₁ :: h₂ :: h₃ :: h₄ :: s =>
            match codeByte h₁ h₂ h₃ h₄ with
            | some b => (stringRest s).map (Prod.map (b :: ·) id)
            | none => none
          | _ => none
        else
          match letterByte e with
          | some b => (stringRest s).map (Prod.map (b :: ·) id)
          | none => none
    else if c < 0x20 then none
    else (stringRest s).map (Prod.map (c :: ·) id)

section Strings

variable {b c e : UInt8} {s : Text}

theorem stringRest_quote (s : Text) : stringRest (quote :: s) = some ([], s) := by
  rw [stringRest.eq_def]
  exact if_pos rfl

theorem stringRest_plain (hquote : c ≠ quote) (hslash : c ≠ backslash) (hlow : ¬ c < 0x20)
    (s : Text) : stringRest (c :: s) = (stringRest s).map (Prod.map (c :: ·) id) := by
  rw [stringRest.eq_def]
  exact (if_neg hquote).trans ((if_neg hslash).trans (if_neg hlow))

theorem stringRest_letter (he : e ≠ 0x75) (hb : letterByte e = some b) (s : Text) :
    stringRest (backslash :: e :: s) = (stringRest s).map (Prod.map (b :: ·) id) := by
  rw [stringRest.eq_def]
  dsimp only
  rw [if_neg (by decide), if_pos rfl, if_neg he, hb]

theorem stringRest_code {h₁ h₂ h₃ h₄ : UInt8} (hb : codeByte h₁ h₂ h₃ h₄ = some b) (s : Text) :
    stringRest (backslash :: 0x75 :: h₁ :: h₂ :: h₃ :: h₄ :: s) =
      (stringRest s).map (Prod.map (b :: ·) id) := by
  rw [stringRest.eq_def]
  dsimp only
  rw [if_neg (by decide), if_pos rfl, if_pos rfl, hb]

end Strings

/-! ### Values -/

/-- A blank between tokens. -/
def isBlank (c : UInt8) : Bool := c = 0x20 || c = 0x09 || c = 0x0a || c = 0x0d

/-- The text behind its leading blanks. -/
def skipBlanks (s : Text) : Text := s.dropWhile isBlank

variable {α : Type}

/-- One item at least, with commas between them, up to the closing bracket. -/
def items (item : Text → Option (α × Text)) (close : UInt8) : ℕ → Text → Option (List α × Text)
  | 0, _ => none
  | n + 1, s =>
    match item s with
    | none => none
    | some (a, s) =>
      match skipBlanks s with
      | [] => none
      | c :: s =>
        if c = comma then (items item close n s).map (Prod.map (a :: ·) id)
        else if c = close then some ([a], s)
        else none

/-- What is between two brackets; the opening one has been read. -/
def delimited (item : Text → Option (α × Text)) (close : UInt8) (s : Text) :
    Option (List α × Text) :=
  match skipBlanks s with
  | [] => none
  | c :: rest => if c = close then some ([], rest) else items item close s.length s

/-- A member of an object: its key, a colon and its value. -/
def member (value : Text → Option (Value × Text)) (s : Text) : Option ((Text × Value) × Text) :=
  match skipBlanks s with
  | [] => none
  | c :: s =>
    if c = quote then
      match stringRest s with
      | none => none
      | some (key, s) =>
        match skipBlanks s with
        | [] => none
        | c :: s => if c = colon then (value s).map (Prod.map (key, ·) id) else none
    else none

/-- A value whose brackets are nested less than `depth` deep. -/
def value : ℕ → Text → Option (Value × Text)
  | 0, _ => none
  | depth + 1, s =>
    match skipBlanks s with
    | [] => none
    | c :: s =>
      if c = quote then (stringRest s).map (Prod.map Value.string id)
      else if c = 0x5b then (delimited (value depth) 0x5d s).map (Prod.map Value.array id)
      else if c = 0x7b then (delimited (member (value depth)) 0x7d s).map (Prod.map Value.object id)
      else none

/-- The value of a whole text, in which brackets cannot be nested deeper than it is long. -/
def decode (s : Text) : Option Value :=
  match value s.length s with
  | none => none
  | some (v, rest) => if skipBlanks rest = [] then some v else none

/-! ### Reading from the front -/

/-- The item is read from every text that begins with it. -/
def Reads (item : Text → Option (α × Text)) (text : Text) (a : α) : Prop :=
  ∀ rest, item (text ++ rest) = some (a, rest)

section Blanks

variable {ws s text : Text} {c : UInt8}

theorem skipBlanks_append (h : ∀ c ∈ ws, isBlank c = true) (s : Text) :
    skipBlanks (ws ++ s) = skipBlanks s := List.dropWhile_append_of_pos h

theorem skipBlanks_cons (hc : isBlank c = false) (s : Text) : skipBlanks (c :: s) = c :: s := by
  rw [skipBlanks, List.dropWhile_cons, hc]
  rfl

/-- Blanks before a value do not matter. -/
theorem Reads.value_blanks {depth : ℕ} {v : Value} (hws : ∀ c ∈ ws, isBlank c = true)
    (h : Reads (value depth) text v) : Reads (value depth) (ws ++ text) v := by
  intro rest
  rw [← h rest, List.append_assoc]
  cases depth with
  | zero => rfl
  | succ depth => rw [value, value, skipBlanks_append hws]

/-- Nor do they before a member. -/
theorem Reads.member_blanks {item : Text → Option (Value × Text)} {m : Text × Value}
    (hws : ∀ c ∈ ws, isBlank c = true) (h : Reads (member item) text m) :
    Reads (member item) (ws ++ text) m := by
  intro rest
  rw [← h rest, List.append_assoc, member, member, skipBlanks_append hws]

end Blanks

section Lists

variable {item : Text → Option (α × Text)} {close : UInt8}

/-- The texts of items behind the first, each with a comma before it. -/
def joined (items : List (Text × α)) : Text := items.flatMap fun p => comma :: p.1

theorem length_le_joined (l : List (Text × α)) : l.length ≤ (joined l).length := by
  induction l with
  | nil => exact Nat.zero_le _
  | cons p l ih =>
    have hcons : joined (p :: l) = comma :: p.1 ++ joined l := List.flatMap_cons
    rw [hcons, List.length_cons, List.length_append, List.length_cons]
    omega

/-- A list of items is read up to its closing bracket. -/
theorem items_joined {first : Text × α} {l : List (Text × α)}
    (h : ∀ p ∈ first :: l, Reads item p.1 p.2) (hclose : close ≠ comma) {tail rest : Text}
    (htail : skipBlanks tail = close :: rest) {n : ℕ} (hn : l.length < n) :
    items item close n (first.1 ++ (joined l ++ tail)) =
      some (first.2 :: l.map Prod.snd, rest) := by
  induction l generalizing first n with
  | nil =>
    obtain ⟨n, rfl⟩ : ∃ k, n = k + 1 := Nat.exists_eq_succ_of_ne_zero (Nat.ne_zero_of_lt hn)
    have hnil : joined ([] : List (Text × α)) ++ tail = tail := rfl
    rw [items, h first List.mem_cons_self, hnil]
    dsimp only
    rw [htail]
    dsimp only
    rw [if_neg hclose, if_pos rfl]
    rfl
  | cons p l ih =>
    obtain ⟨n, rfl⟩ : ∃ k, n = k + 1 := Nat.exists_eq_succ_of_ne_zero (Nat.ne_zero_of_lt hn)
    have hcons : joined (p :: l) ++ tail = comma :: (p.1 ++ (joined l ++ tail)) := by
      rw [joined, List.flatMap_cons, List.append_assoc, List.cons_append, joined]
    have hrest := ih (fun q hq => h q (List.mem_cons_of_mem _ hq)) (n := n)
      (Nat.lt_of_succ_lt_succ hn)
    rw [items, h first List.mem_cons_self, hcons]
    dsimp only
    rw [skipBlanks_cons (by decide)]
    dsimp only
    rw [if_pos rfl, hrest]
    rfl

/-- A list between brackets is read. -/
theorem reads_delimited (ws : Text) {first : Text × α} {l : List (Text × α)}
    (h : ∀ p ∈ first :: l, Reads item p.1 p.2) (hws : ∀ c ∈ ws, isBlank c = true)
    (hclose : close ≠ comma ∧ isBlank close = false)
    (hfirst : ∀ s, ∃ c rest, skipBlanks (first.1 ++ s) = c :: rest ∧ c ≠ close) :
    Reads (delimited item close) (first.1 ++ (joined l ++ (ws ++ [close])))
      (first.2 :: l.map Prod.snd) := by
  intro rest
  have htail : skipBlanks (ws ++ close :: rest) = close :: rest := by
    rw [skipBlanks_append hws, skipBlanks_cons hclose.2]
  have htext : first.1 ++ (joined l ++ (ws ++ [close])) ++ rest =
      first.1 ++ (joined l ++ (ws ++ close :: rest)) := by
    simp only [List.append_assoc, List.singleton_append]
  obtain ⟨c, s, hskip, hc⟩ := hfirst (joined l ++ (ws ++ close :: rest))
  have hlen := length_le_joined l
  rw [htext, delimited, hskip]
  dsimp only
  rw [if_neg hc]
  refine items_joined h hclose.1 htail ?_
  simp only [List.length_append, List.length_cons]
  omega

/-- Two brackets with blanks between them. -/
theorem reads_delimited_nil (ws : Text) (hws : ∀ c ∈ ws, isBlank c = true)
    (hclose : isBlank close = false) :
    Reads (delimited item close) (ws ++ [close]) [] := by
  intro rest
  rw [delimited, List.append_assoc, skipBlanks_append hws, List.singleton_append,
    skipBlanks_cons hclose]
  exact if_pos rfl

end Lists

section Values

variable {text key : Text} {depth : ℕ}

/-- A string. -/
theorem reads_string {s : Text} (h : Reads stringRest text s) :
    Reads (value (depth + 1)) (quote :: text) (.string s) := by
  intro rest
  rw [value, List.cons_append, skipBlanks_cons (by decide)]
  dsimp only
  rw [if_pos rfl, h rest]
  rfl

/-- An array. -/
theorem reads_array {l : List Value} (h : Reads (delimited (value depth) 0x5d) text l) :
    Reads (value (depth + 1)) (0x5b :: text) (.array l) := by
  intro rest
  rw [value, List.cons_append, skipBlanks_cons (by decide)]
  dsimp only
  rw [if_neg (by decide), if_pos rfl, h rest]
  rfl

/-- An object. -/
theorem reads_object {l : List (Text × Value)}
    (h : Reads (delimited (member (value depth)) 0x7d) text l) :
    Reads (value (depth + 1)) (0x7b :: text) (.object l) := by
  intro rest
  rw [value, List.cons_append, skipBlanks_cons (by decide)]
  dsimp only
  rw [if_neg (by decide), if_neg (by decide), if_pos rfl, h rest]
  rfl

/-- A member of an object. -/
theorem reads_member {item : Text → Option (Value × Text)} {keyText : Text} {v : Value}
    (hkey : Reads stringRest keyText key) (h : Reads item text v) :
    Reads (member item) (quote :: keyText ++ colon :: text) (key, v) := by
  intro rest
  rw [member, List.append_assoc, List.cons_append, skipBlanks_cons (by decide)]
  dsimp only
  rw [if_pos rfl, hkey, List.cons_append]
  dsimp only
  rw [skipBlanks_cons (by decide)]
  dsimp only
  rw [if_pos rfl, h rest]
  rfl

/-- A value with blanks behind it is a whole text. -/
theorem decode_of_reads {v : Value} {ws : Text} (h : Reads (value (text ++ ws).length) text v)
    (hws : ∀ c ∈ ws, isBlank c = true) : decode (text ++ ws) = some v := by
  have hblank : skipBlanks ws = [] := List.dropWhile_eq_nil_iff.mpr hws
  rw [decode, h ws]
  exact if_pos hblank

end Values

end Json
