import EntryServer.Toml.Value

/-! # Scalars of a configuration file

Strings, numbers, dates and truth values. A reader takes the rest of the file and gives a value with what
is left then, or nothing if the file is malformed there. -/
namespace EntryServer.Toml
set_option autoImplicit false

abbrev Reader (α : Type) := Text → Option (α × Text)

def literal (word : Text) : Reader Unit := fun s =>
  (word.isPrefixOf? s).map fun rest => ((), rest)

/-! ## Blanks -/

def isBlank (c : Char) : Bool := c = ' ' || c = '\t'

def skipBlanks (s : Text) : Text := s.dropWhile isBlank

def newline? : Text → Option Text
  | '\n' :: r => some r
  | '\r' :: '\n' :: r => some r
  | _ => none

def isCommentChar (c : Char) : Bool := c = '\t' || (' ' ≤ c && c ≤ '~') || '\x80' ≤ c

def skipComment : Text → Text
  | '#' :: r => r.dropWhile isCommentChar
  | s => s

/-! ## Strings -/

def isBasicChar (c : Char) : Bool := isCommentChar c && c ≠ '"' && c ≠ '\\'

/-- A character of a string in apostrophes. -/
def isLiteralChar (c : Char) : Bool := isCommentChar c && c ≠ '\''

def hexValue? (c : Char) : Option Nat :=
  if c.toNat < 128 then Hex.value? c.toNat.toUInt8 else none

/-- The number that exactly `count` hexadecimal digits stand for. -/
def hexNumber : Nat → Nat → Reader Nat
  | 0, n, s => some (n, s)
  | _ + 1, _, [] => none
  | count + 1, n, c :: r =>
    match hexValue? c with
    | some d => hexNumber count (16 * n + d) r
    | none => none

def scalar? (n : Nat) : Option Char :=
  if n < 0xD800 ∨ (0xDFFF < n ∧ n < 0x110000) then some (Char.ofNat n) else none

def escape : Reader Char
  | 'b' :: r => some ('\x08', r)
  | 't' :: r => some ('\t', r)
  | 'n' :: r => some ('\n', r)
  | 'f' :: r => some ('\x0C', r)
  | 'r' :: r => some ('\r', r)
  | '"' :: r => some ('"', r)
  | '\\' :: r => some ('\\', r)
  | 'u' :: r => (hexNumber 4 0 r).bind fun (n, r) => (scalar? n).map (·, r)
  | 'U' :: r => (hexNumber 8 0 r).bind fun (n, r) => (scalar? n).map (·, r)
  | _ => none

/-- The rest of a string in quotes. `fuel` bounds the number of characters. -/
def basicTail : Nat → Reader Text
  | 0, _ => none
  | _ + 1, '"' :: r => some ([], r)
  | fuel + 1, '\\' :: r =>
    (escape r).bind fun (c, r) => (basicTail fuel r).map fun (t, r) => (c :: t, r)
  | fuel + 1, c :: r =>
    if isBasicChar c then (basicTail fuel r).map fun (t, r) => (c :: t, r) else none
  | _ + 1, [] => none

def literalTail (s : Text) : Option (Text × Text) :=
  match s.dropWhile isLiteralChar with
  | '\'' :: r => some (s.takeWhile isLiteralChar, r)
  | _ => none

/-- A line ending right after the opening of a string of several lines is left out. -/
def skipFirstNewline (s : Text) : Text := (newline? s).getD s

/-- Blanks and line endings after a backslash at the end of a line. -/
def skipFold : Text → Text
  | '\r' :: '\n' :: r => skipFold r
  | c :: r => if c = '\n' ∨ isBlank c then skipFold r else c :: r
  | [] => []

/-- What closes a string of several lines: three quotes, and up to two before them belong to it. -/
def closing? (quote : Char) (s : Text) : Option (Text × Text) :=
  let run := (s.takeWhile (· = quote)).length
  if run < 3 then none
  else
    let extra := min (run - 3) 2
    some (List.replicate extra quote, s.drop (extra + 3))

/-- The rest of a string of several lines. With `escapes` a backslash begins an escape. -/
def linesTail (quote : Char) (escapes : Bool) : Nat → Reader Text
  | 0, _ => none
  | _ + 1, [] => none
  | fuel + 1, c :: r =>
    match closing? quote (c :: r), newline? (c :: r) with
    | some done, _ => some done
    | none, some r => (linesTail quote escapes fuel r).map fun (t, r) => ('\n' :: t, r)
    | none, none =>
      if escapes ∧ c = '\\' then
        match newline? (skipBlanks r) with
        | some r => linesTail quote escapes fuel (skipFold r)
        | none => (escape r).bind fun (c, r) =>
            (linesTail quote escapes fuel r).map fun (t, r) => (c :: t, r)
      else if isCommentChar c then
        (linesTail quote escapes fuel r).map fun (t, r) => (c :: t, r)
      else none

def lineString : Reader Text
  | '"' :: r => basicTail (r.length + 1) r
  | '\'' :: r => literalTail r
  | _ => none

def string : Reader Text
  | '"' :: '"' :: '"' :: r => linesTail '"' true (r.length + 1) (skipFirstNewline r)
  | '\'' :: '\'' :: '\'' :: r => linesTail '\'' false (r.length + 1) (skipFirstNewline r)
  | s => lineString s

/-! ## Integers -/

def isDigit (c : Char) : Bool := '0' ≤ c && c ≤ '9'

def digitValue (c : Char) : Nat := c.toNat - 48

/-- Digits of a base after the first one. An underscore stands between two digits. -/
def moreDigits (value? : Char → Option Nat) : Reader (List Nat)
  | '_' :: c :: r =>
    match value? c with
    | some d => (moreDigits value? r).map fun (ds, r) => (d :: ds, r)
    | none => none
  | c :: r =>
    match value? c with
    | some d => (moreDigits value? r).map fun (ds, r) => (d :: ds, r)
    | none => if c = '_' then none else some ([], c :: r)
  | [] => some ([], [])

def digits (value? : Char → Option Nat) : Reader (List Nat)
  | c :: r =>
    match value? c with
    | some d => (moreDigits value? r).map fun (ds, r) => (d :: ds, r)
    | none => none
  | [] => none

def decimal? (c : Char) : Option Nat := if isDigit c then some (digitValue c) else none

def octal? (c : Char) : Option Nat := if '0' ≤ c ∧ c ≤ '7' then some (digitValue c) else none

def binary? (c : Char) : Option Nat := if c = '0' ∨ c = '1' then some (digitValue c) else none

def ofDigits (base : Nat) (ds : List Nat) : Nat := ds.foldl (fun n d => base * n + d) 0

def sign : Text → Bool × Text
  | '-' :: r => (true, r)
  | '+' :: r => (false, r)
  | s => (false, s)

/-- Decimal digits that do not begin with a zero, unless it is the only one. -/
def wholeDigits : Reader (List Nat)
  | '0' :: r => some ([0], r)
  | s => digits decimal? s

/-- Integers are signed words of 64 bits. -/
def fits (n : Int) : Bool := -(Int.pow 2 63) ≤ n && n < Int.pow 2 63

def asInteger (n : Int) (rest : Text) : Option (Value × Text) :=
  if fits n then some (.integer n, rest) else none

def integer : Reader Value
  | '0' :: 'x' :: r => (digits hexValue? r).bind fun (ds, r) => asInteger (ofDigits 16 ds) r
  | '0' :: 'o' :: r => (digits octal? r).bind fun (ds, r) => asInteger (ofDigits 8 ds) r
  | '0' :: 'b' :: r => (digits binary? r).bind fun (ds, r) => asInteger (ofDigits 2 ds) r
  | s =>
    let (negative, r) := sign s
    (wholeDigits r).bind fun (ds, r) =>
      let n : Int := ofDigits 10 ds
      asInteger (if negative then -n else n) r

/-! ## Floating-point numbers -/

/-- Does `m · 10^e` round to a finite number of 64 bits? -/
def isFinite (m : Nat) (e : Int) : Bool :=
  let digits : Int := (Nat.toDigits 10 m).length
  if m = 0 ∨ digits + e < 300 then true
  else if 310 < digits + e then false
  else
    let limit := Nat.pow 2 1024 - Nat.pow 2 970
    if 0 ≤ e then m * Nat.pow 10 e.toNat < limit else m < limit * Nat.pow 10 (-e).toNat

def fraction : Reader (List Nat)
  | '.' :: r => digits decimal? r
  | _ => none

def exponent : Reader Int
  | c :: r =>
    if c = 'e' ∨ c = 'E' then
      let (negative, r) := sign r
      (digits decimal? r).map fun (ds, r) =>
        let n : Int := ofDigits 10 ds
        (if negative then -n else n, r)
    else none
  | [] => none

def startsExponent (s : Text) : Bool := s.head? == some 'e' || s.head? == some 'E'

/-- A number with a fraction, an exponent or both. -/
def decimalFloat (s : Text) : Option (Value × Text) := do
  let (negative, r) := sign s
  let (ds, r) ← wholeDigits r
  let (fs, r) ← if r.head? = some '.' then fraction r else if startsExponent r then some ([], r) else none
  let (e, r) ← if startsExponent r then exponent r else some (0, r)
  if negative || isFinite (ofDigits 10 (ds ++ fs)) (e - fs.length) then some (.float, r) else none

def float (s : Text) : Option (Value × Text) :=
  let r := (sign s).2
  match literal "inf".toList r, literal "nan".toList r with
  | some ((), r), _ => some (.float, r)
  | _, some ((), r) => some (.float, r)
  | none, none => decimalFloat s

/-! ## Dates and times -/

/-- A number of exactly so many decimal digits, between two bounds. -/
def field (count low high : Nat) (s : Text) : Option (Nat × Text) :=
  let ds := (s.take count).filterMap decimal?
  let n := ofDigits 10 ds
  if ds.length = count ∧ low ≤ n ∧ n ≤ high then some (n, s.drop count) else none

def isLeap (year : Nat) : Bool := year % 4 = 0 && (year % 100 ≠ 0 || year % 400 = 0)

def daysIn (year month : Nat) : Nat :=
  if month = 2 then if isLeap year then 29 else 28
  else if month = 4 ∨ month = 6 ∨ month = 9 ∨ month = 11 then 30
  else 31

def date (s : Text) : Option (Unit × Text) := do
  let (year, r) ← field 4 0 9999 s
  let (_, r) ← literal ['-'] r
  let (month, r) ← field 2 1 12 r
  let (_, r) ← literal ['-'] r
  let (_, r) ← field 2 1 (daysIn year month) r
  some ((), r)

def time (s : Text) : Option (Unit × Text) := do
  let (_, r) ← field 2 0 23 s
  let (_, r) ← literal [':'] r
  let (_, r) ← field 2 0 59 r
  let (_, r) ← literal [':'] r
  let (_, r) ← field 2 0 60 r
  match r with
  | '.' :: r => if (r.takeWhile isDigit).isEmpty then none else some ((), r.dropWhile isDigit)
  | r => some ((), r)

def zone (s : Text) : Option (Unit × Text) := do
  match s with
  | 'Z' :: r | 'z' :: r => some ((), r)
  | '+' :: r | '-' :: r =>
    let (_, r) ← field 2 0 23 r
    let (_, r) ← literal [':'] r
    let (_, r) ← field 2 0 59 r
    some ((), r)
  | _ => none

/-- The time after a date, and its zone. Without a time nothing is taken. -/
def skipTimeOfDay : Text → Text
  | c :: r =>
    if c = 'T' ∨ c = 't' ∨ c = ' ' then
      match time r with
      | some ((), r) =>
        match zone r with
        | some ((), r) => r
        | none => r
      | none => c :: r
    else c :: r
  | [] => []

def datetime (s : Text) : Option (Value × Text) :=
  match date s with
  | some ((), r) => some (.datetime, skipTimeOfDay r)
  | none => (time s).map fun ((), r) => (.datetime, r)

/-! ## Every scalar -/

def boolean (s : Text) : Option (Value × Text) :=
  match literal "true".toList s, literal "false".toList s with
  | some ((), r), _ => some (.boolean true, r)
  | _, some ((), r) => some (.boolean false, r)
  | none, none => none

def scalar (s : Text) : Option (Value × Text) :=
  match s with
  | '"' :: _ | '\'' :: _ => (string s).map fun (t, r) => (.string t, r)
  | 't' :: _ | 'f' :: _ => boolean s
  | _ =>
    match datetime s with
    | some done => some done
    | none =>
      match float s with
      | some done => some done
      | none => integer s

end EntryServer.Toml
