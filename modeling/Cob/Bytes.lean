import Mathlib.Data.List.Lex
import Mathlib.Data.List.TakeWhile

/-!
# Byte strings

`std::string_view` is a list of bytes. This module holds the few string operations the sources
use: `find` on a single character, splitting, prefix tests, and
`std::filesystem::path::replace_extension`.
-/

/-- Bytes are ordered as `char_traits<char>::compare` orders them, as unsigned values. -/
instance instLinearOrderUInt8 : LinearOrder UInt8 where
  le_refl _ := UInt8.le_refl _
  le_trans _ _ _ := UInt8.le_trans
  le_antisymm _ _ := UInt8.le_antisymm
  le_total := UInt8.le_total
  lt_iff_le_not_ge a b := by
    rw [UInt8.not_le]
    exact ⟨fun h => ⟨UInt8.le_of_lt h, h⟩, And.right⟩
  toDecidableLE := inferInstance
  toDecidableEq := inferInstance
  toDecidableLT := inferInstance

namespace Cob

/-- The contents of a `std::string_view`. -/
abbrev Bytes := List UInt8

/-- The bytes of an ASCII string literal of the sources. -/
def ascii (s : String) : Bytes := s.toList.map fun c => UInt8.ofNat c.toNat

/-- The byte of an ASCII character literal. -/
def chr (c : Char) : UInt8 := UInt8.ofNat c.toNat

namespace Bytes

/-- `find(c)` with the two `substr` calls around it: the text before the first `c` and the text
after it, `none` when `find` answers `npos`. -/
def cut (c : UInt8) : Bytes → Option (Bytes × Bytes)
  | [] => none
  | b :: s => if b = c then some ([], s) else (cut c s).map fun p => (b :: p.1, p.2)

/-- `starts_with`. -/
def startsWith (s pre : Bytes) : Bool := pre.isPrefixOf s

/-- `ends_with`. -/
def endsWith (s suf : Bytes) : Bool := suf.isSuffixOf s

/-- `c_str()`, as far as a reader of C strings gets: up to the first NUL. -/
def cStr (s : Bytes) : Bytes := s.takeWhile (· ≠ 0)

theorem cStr_of_not_mem {s : Bytes} (h : 0 ∉ s) : cStr s = s := by
  refine List.takeWhile_eq_self_iff.mpr fun b hb => ?_
  simpa using fun heq : b = 0 => h (heq ▸ hb)

@[simp]
theorem cStr_cStr (s : Bytes) : cStr (cStr s) = cStr s := List.takeWhile_idem

/-- A blank or a tab, the separators of `find_first_not_of(" \t")`. -/
def isBlank (b : UInt8) : Bool := b = chr ' ' || b = chr '\t'

/-- The non-empty parts of a comma-separated list: the `while (!remaining.empty())` loop that
`BuildGraph::addStep` and `parseBin` both contain. -/
def commaParts (s : Bytes) : List Bytes := (s.splitOn (chr ',')).filter (· ≠ [])

/-- The words of a blank-separated string: `add_extra_flags` of `buildCommandArgs`. -/
def words (s : Bytes) : List Bytes := (s.splitOnP isBlank).filter (· ≠ [])

/-- `std::views::split(s, ' ')`: an empty string has no parts, a trailing space ends in an
empty part. -/
def splitSpaces (s : Bytes) : List Bytes := if s = [] then [] else s.splitOn (chr ' ')

/-- The part of a path after the last `/`. -/
def filename (p : Bytes) : Bytes := (p.splitOn (chr '/')).getLastD []

/-- `path::extension()` of a file name: from its last dot on, empty for `.`, `..`, a name
without a dot and a name whose only dot comes first. -/
def extension (name : Bytes) : Bytes :=
  if name = ascii "." ∨ name = ascii ".." then []
  else
    let tail := (name.reverse.takeWhile (· ≠ chr '.')).reverse
    if tail.length + 1 < name.length then chr '.' :: tail else []

/-- `path(p).replace_extension(ext)` for an `ext` that begins with a dot. -/
def replaceExtension (p ext : Bytes) : Bytes :=
  p.take (p.length - (extension (filename p)).length) ++ ext

example : replaceExtension (ascii "out/app.exe") (ascii ".rsp") = ascii "out/app.rsp" := by decide

example : replaceExtension (ascii "out.d/.app") (ascii ".rsp") = ascii "out.d/.app.rsp" := by
  decide

end Bytes

end Cob
