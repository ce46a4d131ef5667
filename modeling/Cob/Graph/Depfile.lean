import Cob.Bytes

/-!
# Dependency files

The reader of compiler-generated `.d` files: `parseDepfile` returns the prerequisites of the
first logical rule, in order. A pointer into the mapped file is the list of bytes from it to the
end; a loop that looks at bytes already behind its pointer carries what it saw (the length of a
backslash run, the distance from the start of a target).
-/

namespace Cob

namespace Depfile

/-- `skipWhitespace`: skip blanks and continuations, but never a rule boundary. `afterCr` says
that the byte before was the CR of a continuation, whose LF belongs to it. -/
def skipWhitespace (afterCr : Bool) : Bytes → Bytes
  | [] => []
  | c :: rest =>
    if afterCr ∧ c = chr '\n' then skipWhitespace false rest
    else if c = chr '\n' ∨ c = chr '\r' then c :: rest
    else if c ≤ chr ' ' then skipWhitespace false rest
    else if c = chr '\\' then
      match rest with
      | [] => c :: rest
      | d :: r =>
        if d = chr '\n' then skipWhitespace false r
        else if d = chr '\r' then skipWhitespace true r
        else c :: rest -- an escaped character starts a file name
    else c :: rest

/-- A byte at which `findTokenSpecial` stops. -/
def isSpecial (c : UInt8) : Bool :=
  c ≤ chr ' ' || c = chr '\\' || c = chr '#' || c = chr '$'

/-- The second half of `extractToken`, from the first backslash on. `run` counts the backslashes
just before the current byte. -/
def escaped (run : ℕ) : Bytes → Bytes × Bytes
  | [] => ([], [])
  | c :: rest =>
    if c = chr '\\' then
      match rest with
      | [] => ([c], [])
      | d :: _ =>
        -- the last backslash of an odd run before a line end is a continuation
        if (d = chr '\n' ∨ d = chr '\r') ∧ (run + 1) % 2 = 1 then ([], c :: rest)
        else (escaped (run + 1) rest).map (c :: ·) id
    else if 0 < run ∧ (c = chr '\n' ∨ c = chr '\r') then ([], c :: rest)
    else if 0 < run ∧ (c = chr '#' ∨ run % 2 = 1 ∧ (c = chr ' ' ∨ c = chr '\t')) then
      (escaped 0 rest).map (c :: ·) id
    else if c ≤ chr ' ' ∨ c = chr '#' then ([], c :: rest)
    else (escaped 0 rest).map (c :: ·) id

/-- `extractToken`: the token, whether it needs decoding, and what follows it. -/
def extractToken (s : Bytes) : Bytes × Bool × Bytes :=
  let plain := s.takeWhile fun c => !isSpecial c || c = chr '$'
  let rest := s.drop plain.length
  if rest.head? = some (chr '\\') then
    let (tail, rest') := escaped 0 rest
    (plain ++ tail, true, rest')
  else (plain, plain.contains (chr '$'), rest)

/-- The decoding loop of `decodeDepfileToken`. `run` counts the backslashes read but not yet
written. -/
def unquote (run : ℕ) : Bytes → Bytes
  | [] => List.replicate run (chr '\\')
  | c :: rest =>
    if c = chr '\\' then unquote (run + 1) rest
    -- one backslash quotes `#`; before a blank they are doubled first
    else if 0 < run ∧ c = chr '#' then
      List.replicate (run - 1) (chr '\\') ++ c :: unquote 0 rest
    else if 0 < run ∧ (c = chr ' ' ∨ c = chr '\t') then
      List.replicate (run / 2) (chr '\\') ++ c :: unquote 0 rest
    else
      List.replicate run (chr '\\') ++
        match rest with
        | [] => [c]
        | d :: r =>
          if c = chr '$' ∧ d = chr '$' then c :: unquote 0 r else c :: unquote 0 (d :: r)

/-- `decodeDepfileToken`. -/
def decodeDepfileToken (token : Bytes) (needsDecode : Bool) : Bytes :=
  if !needsDecode || !token.any (fun c => c = chr '\\' || c = chr '$') then token
  else unquote 0 token

/-- The target scan of `parseDepfile`: what follows the target separator, `none` when the rule
has none. `col` is the distance from the start of the current target. -/
def skipTargets (col : ℕ) : Bytes → Option Bytes
  | [] => some []
  | c :: rest =>
    if c = chr '\n' ∨ c = chr '\r' ∨ c = chr '#' then none
    else
      match rest with
      | [] => some []
      | d :: r =>
        if c = chr '\\' then
          match r with
          | [] => some []
          | e :: r' =>
            if d = chr '\r' ∧ e = chr '\n' then skipTargets (col + 3) r'
            else skipTargets (col + 2) (e :: r')
        else if c = chr ':' then
          -- a drive prefix does not end the target list
          if col = 1 ∧ (d = chr '/' ∨ d = chr '\\') then skipTargets (col + 1) (d :: r)
          else some (d :: r)
        else if c = chr ' ' ∨ c = chr '\t' then skipTargets 0 (d :: r)
        else skipTargets (col + 1) (d :: r)

/-- The main loop of `parseDepfile`. Every round takes at least one byte, so the length of the
rest is enough fuel. -/
def prerequisites : ℕ → Bytes → List Bytes
  | 0, _ => []
  | fuel + 1, s =>
    match skipWhitespace false s with
    | [] => []
    | c :: rest =>
      if c = chr '\n' ∨ c = chr '\r' ∨ c = chr '#' then []
      else
        let (token, needsDecode, rest') := extractToken (c :: rest)
        if token = [] then prerequisites fuel rest'
        else decodeDepfileToken token needsDecode :: prerequisites fuel rest'

end Depfile

open Depfile in
/-- `parseDepfile`: the paths it hands to its callback. -/
def parseDepfile (content : Bytes) : List Bytes :=
  match skipTargets 0 content with
  | none => []
  | some s => prerequisites s.length s

example : parseDepfile (ascii "o: a\\ b.h \\\r\n c$$.h\nother: x") =
    [ascii "a b.h", ascii "c$.h"] := by
  decide +kernel

end Cob
