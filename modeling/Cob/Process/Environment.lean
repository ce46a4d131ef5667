import Cob.Bytes
import Mathlib.Data.List.Find

/-!
# The environment of a tool

`validateEnvironment`, and `buildEnvironment`, which puts overrides into the environment of the
parent. The program that is run looks a variable up with `getenv`, which answers with the first
entry that has the key.

* `getenv_buildEnvironment` — valid overrides, and only they, change what is looked up.
-/

namespace Cob

/-- The first character of a variable's value follows the `=` after its key. -/
def environmentEntryHasKey (entry key : Bytes) : Bool :=
  decide (key.length < entry.length) && entry[key.length]? == some (chr '=') &&
    entry.startsWith key

/-- `isOverridden`. -/
def isOverridden (entry : Bytes) (overrides : List (Bytes × Bytes)) : Bool :=
  overrides.any fun pair => environmentEntryHasKey entry pair.1

/-- `std::format("{}={}", key, value)`. -/
def environmentEntry (pair : Bytes × Bytes) : Bytes := pair.1 ++ chr '=' :: pair.2

/-- `buildEnvironment`: what is not overridden, and then the overrides. -/
def buildEnvironment (environ : List Bytes) (overrides : List (Bytes × Bytes)) : List Bytes :=
  environ.filter (fun entry => !isOverridden entry overrides) ++ overrides.map environmentEntry

/-- `validateEnvironment`, with the error for the first pair that is not valid. -/
def validateEnvironment : List (Bytes × Bytes) → Except Bytes Unit
  | [] => .ok ()
  | (key, value) :: rest =>
    if key = [] ∨ key.contains (chr '=') ∨ key.contains 0 then
      .error (ascii "Invalid environment variable key: '" ++ key ++ ascii "'")
    else if value.contains 0 then
      .error (ascii "Invalid environment variable value for key '" ++ key ++ ascii "'")
    else validateEnvironment rest

/-- `getenv`: the value of the first entry with the key. -/
def getenv (environ : List Bytes) (key : Bytes) : Option Bytes :=
  (environ.find? fun entry => environmentEntryHasKey entry key).map (·.drop (key.length + 1))

section Environment

variable {entry key key' value : Bytes} {overrides : List (Bytes × Bytes)} {environ : List Bytes}

/-- An entry has a key exactly when it is the key, `=` and a value. -/
theorem environmentEntryHasKey_iff :
    environmentEntryHasKey entry key = true ↔ ∃ value, entry = environmentEntry (key, value) := by
  simp only [environmentEntryHasKey, Bytes.startsWith, Bool.and_eq_true, decide_eq_true_eq,
    beq_iff_eq, List.isPrefixOf_iff_prefix]
  constructor
  · rintro ⟨⟨-, hchar⟩, rest, rfl⟩
    rw [List.getElem?_append_right (le_refl _), Nat.sub_self] at hchar
    cases rest with
    | nil => simp at hchar
    | cons c value =>
      obtain rfl : c = chr '=' := by simpa using hchar
      exact ⟨value, rfl⟩
  · rintro ⟨value, rfl⟩
    simp [environmentEntry]

/-- A key without `=` is the part of its entry before the first `=`. -/
theorem environmentEntry_inj (hkey : chr '=' ∉ key) (hkey' : chr '=' ∉ key') {value value' : Bytes}
    (h : environmentEntry (key, value) = environmentEntry (key', value')) :
    key = key' ∧ value = value' := by
  induction key generalizing key' with
  | nil =>
    cases key' with
    | nil => simpa [environmentEntry] using h
    | cons c key' =>
      obtain ⟨rfl, -⟩ := List.cons.inj h
      exact absurd List.mem_cons_self hkey'
  | cons b key ih =>
    cases key' with
    | nil =>
      obtain ⟨rfl, -⟩ := List.cons.inj h
      exact absurd List.mem_cons_self hkey
    | cons c key' =>
      obtain ⟨rfl, hrest⟩ := List.cons.inj h
      obtain ⟨rfl, rfl⟩ := ih (fun hmem => hkey (List.mem_cons_of_mem _ hmem))
        (fun hmem => hkey' (List.mem_cons_of_mem _ hmem)) hrest
      exact ⟨rfl, rfl⟩

/-- The key of an override's entry is its key. -/
theorem environmentEntryHasKey_environmentEntry (hkey : chr '=' ∉ key) {pair : Bytes × Bytes}
    (hpair : chr '=' ∉ pair.1) :
    environmentEntryHasKey (environmentEntry pair) key = decide (pair.1 = key) := by
  rw [Bool.eq_iff_iff, environmentEntryHasKey_iff, decide_eq_true_eq]
  constructor
  · rintro ⟨value, heq⟩
    exact (environmentEntry_inj hpair hkey heq).1
  · rintro rfl
    exact ⟨pair.2, rfl⟩

/-- What an entry holds after its key. -/
theorem drop_environmentEntry (pair : Bytes × Bytes) :
    (environmentEntry pair).drop (pair.1.length + 1) = pair.2 := by
  simp [environmentEntry]

/-- Valid overrides have keys without `=`. -/
theorem not_mem_of_validateEnvironment (h : validateEnvironment overrides = .ok ())
    {pair : Bytes × Bytes} (hpair : pair ∈ overrides) : chr '=' ∉ pair.1 := by
  induction overrides with
  | nil => simp at hpair
  | cons first rest ih =>
    obtain ⟨key, value⟩ := first
    rw [validateEnvironment] at h
    split_ifs at h with hkey hvalue
    rcases List.mem_cons.mp hpair with rfl | hpair
    · simp only [not_or] at hkey
      simpa using hkey.2.1
    · exact ih h hpair

/-- With valid overrides, a variable has the value of its first override, and where it has none the
value it has in the parent. -/
theorem getenv_buildEnvironment (h : validateEnvironment overrides = .ok ())
    (hkey : chr '=' ∉ key) : getenv (buildEnvironment environ overrides) key =
      match overrides.find? (fun pair => pair.1 = key) with
      | some pair => some pair.2
      | none => getenv environ key := by
  have hkeys : ∀ pair ∈ overrides, chr '=' ∉ pair.1 := fun _ => not_mem_of_validateEnvironment h
  have hadded : (overrides.map environmentEntry).find? (environmentEntryHasKey · key) =
      (overrides.find? fun pair => pair.1 = key).map environmentEntry := by
    rw [List.find?_map]
    refine congrArg _ (List.find?_congr fun pair hpair => ?_)
    exact environmentEntryHasKey_environmentEntry hkey (hkeys pair hpair)
  simp only [getenv, buildEnvironment, List.find?_append, hadded]
  cases hfind : overrides.find? fun pair => pair.1 = key with
  | some pair =>
    -- the parent's entries of the key were taken out
    have hpair := List.mem_of_find?_eq_some hfind
    obtain rfl : pair.1 = key := by simpa using List.find?_some hfind
    have hnone : (environ.filter fun entry => !isOverridden entry overrides).find?
        (environmentEntryHasKey · pair.1) = none := by
      refine List.find?_eq_none.mpr fun entry hentry hhas => ?_
      have hnot := (List.mem_filter.mp hentry).2
      simp only [isOverridden, Bool.not_eq_true', List.any_eq_false] at hnot
      exact hnot pair hpair hhas
    simp [hnone, drop_environmentEntry]
  | none =>
    -- the entries of the key are nobody's override
    have hsame : (environ.filter fun entry => !isOverridden entry overrides).find?
        (environmentEntryHasKey · key) = environ.find? (environmentEntryHasKey · key) := by
      rw [List.find?_filter]
      refine List.find?_congr fun entry _ => ?_
      rw [Bool.eq_iff_iff, decide_eq_true_eq, and_iff_right_iff_imp]
      intro hhas
      obtain ⟨value, rfl⟩ := environmentEntryHasKey_iff.mp hhas
      simp only [isOverridden, Bool.not_eq_true', List.any_eq_false]
      intro pair hpair hover
      obtain ⟨value', heq⟩ := environmentEntryHasKey_iff.mp hover
      obtain ⟨hsame, -⟩ := environmentEntry_inj hkey (hkeys pair hpair) heq
      have hnot := List.find?_eq_none.mp hfind pair hpair
      simp [hsame] at hnot
    simp [hsame]

/-- The first of two overrides of a variable is seen. -/
theorem getenv_buildEnvironment_first :
    getenv (buildEnvironment [ascii "A=0", ascii "AB=1"]
      [(ascii "A", ascii "2"), (ascii "A", ascii "3")]) (ascii "A") = some (ascii "2") :=
  have h : validateEnvironment [(ascii "A", ascii "2"), (ascii "A", ascii "3")] = .ok () := rfl
  (getenv_buildEnvironment h (by decide)).trans rfl

end Environment

end Cob
