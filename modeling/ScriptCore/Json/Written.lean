import ScriptCore.Number.Numeral

/-!
# JSON as it is written

Reading JSON text in two steps. The first keeps what is written: numbers as digits, the entries of
an object in their order and with repetitions, and strings, except that one with half a surrogate
pair in it stands for no text. What such things mean, and how deep the nesting may be, is for the
second step to say, which differs from one use of the text to another.
-/

namespace ScriptCore

/-- A number as it is written: a sign, digits before the point, digits after it if there is a point,
and the sign and digits of the exponent if there is one. -/
structure WrittenNumber where
  negative : Bool
  whole : List Char
  fraction : Option (List Char)
  exponent : Option (Bool × List Char)

/-- JSON as it is written. -/
inductive Written where
  | null
  | boolean (b : Bool)
  | number (n : WrittenNumber)
  | string (s : Option String)
  | array (items : List Written)
  | object (entries : List (Option String × Written))

namespace Written

/-! ## Strings -/

/-- A character of a string, or a 16-bit unit written by its number. -/
inductive Piece where
  | char (c : Char)
  | unit (n : Nat)

def escaped? : Char → Option Char
  | '"' => some '"'
  | '\\' => some '\\'
  | '/' => some '/'
  | 'b' => some '\x08'
  | 'f' => some '\x0c'
  | 'n' => some '\n'
  | 'r' => some '\r'
  | 't' => some '\t'
  | _ => none

def unit? (a b c d : Char) : Option Nat := do
  let a ← Numeral.hexDigit? a
  let b ← Numeral.hexDigit? b
  let c ← Numeral.hexDigit? c
  let d ← Numeral.hexDigit? d
  return ((a * 16 + b) * 16 + c) * 16 + d

/-- The pieces of a string up to the closing quote, and what follows it. Controls must be escaped.
-/
def pieces : List Char → Option (List Piece × List Char)
  | [] => none
  | '"' :: rest => some ([], rest)
  | '\\' :: 'u' :: a :: b :: c :: d :: rest => do
    let n ← unit? a b c d
    let (following, rest) ← pieces rest
    return (.unit n :: following, rest)
  | '\\' :: c :: rest => do
    let c ← escaped? c
    let (following, rest) ← pieces rest
    return (.char c :: following, rest)
  | c :: rest => do
    if c.toNat < 0x20 then none
    let (following, rest) ← pieces rest
    return (.char c :: following, rest)

/-- The characters that pieces stand for, none if half of a surrogate pair is left over. -/
def join : List Piece → Option (List Char)
  | [] => some []
  | .char c :: rest => (join rest).map (c :: ·)
  | .unit high :: .unit low :: rest =>
    if 0xD800 ≤ high ∧ high ≤ 0xDBFF then
      if 0xDC00 ≤ low ∧ low ≤ 0xDFFF then
        (join rest).map (Char.ofNat (0x10000 + (high - 0xD800) * 0x400 + (low - 0xDC00)) :: ·)
      else none
    else if 0xDC00 ≤ high ∧ high ≤ 0xDFFF then none
    else (join (.unit low :: rest)).map (Char.ofNat high :: ·)
  | .unit n :: rest =>
    if 0xD800 ≤ n ∧ n ≤ 0xDFFF then none else (join rest).map (Char.ofNat n :: ·)

def string? (cs : List Char) : Option (Option String × List Char) :=
  (pieces cs).map fun (pieces, rest) => ((join pieces).map String.ofList, rest)

/-! ## Numbers -/

def digits? (cs : List Char) : Option (List Char × List Char) :=
  match Numeral.spanDigits cs with
  | ([], _) => none
  | spanned => some spanned

/-- A number after its sign, and what follows it. Only zero itself begins with the digit zero. -/
def number? (negative : Bool) (cs : List Char) : Option (WrittenNumber × List Char) := do
  let (whole, rest) ← match cs with
    | '0' :: rest => some (['0'], rest)
    | _ => digits? cs
  let (fraction, rest) ← match rest with
    | '.' :: after => (digits? after).map fun (digits, rest) => (some digits, rest)
    | _ => some (none, rest)
  let (exponent, rest) ← match rest with
    | 'e' :: after | 'E' :: after =>
      let (negative, after) := Numeral.spanSign after
      (digits? after).map fun (digits, rest) => (some (negative, digits), rest)
    | _ => some (none, rest)
  return (⟨negative, whole, fraction, exponent⟩, rest)

/-! ## Values -/

def skip (cs : List Char) : List Char :=
  cs.dropWhile fun c => c == ' ' || c == '\n' || c == '\t' || c == '\r'

mutual

/-- A value, and what follows it. The fuel bounds the number of values and commas ahead. -/
def value? : Nat → List Char → Option (Written × List Char)
  | 0, _ => none
  | fuel + 1, cs =>
    match skip cs with
    | 'n' :: 'u' :: 'l' :: 'l' :: rest => some (.null, rest)
    | 't' :: 'r' :: 'u' :: 'e' :: rest => some (.boolean true, rest)
    | 'f' :: 'a' :: 'l' :: 's' :: 'e' :: rest => some (.boolean false, rest)
    | '"' :: rest => (string? rest).map fun (s, rest) => (.string s, rest)
    | '-' :: rest => (number? true rest).map fun (n, rest) => (.number n, rest)
    | '[' :: rest =>
      match skip rest with
      | ']' :: rest => some (.array [], rest)
      | rest => (items? fuel rest).map fun (items, rest) => (.array items, rest)
    | '\x7b' :: rest =>
      match skip rest with
      | '\x7d' :: rest => some (.object [], rest)
      | rest => (entries? fuel rest).map fun (entries, rest) => (.object entries, rest)
    | cs => (number? false cs).map fun (n, rest) => (.number n, rest)

/-- The items of an array, at least one, up to the closing bracket. -/
def items? : Nat → List Char → Option (List Written × List Char)
  | 0, _ => none
  | fuel + 1, cs => do
    let (item, rest) ← value? fuel cs
    match skip rest with
    | ',' :: rest =>
      let (items, rest) ← items? fuel rest
      return (item :: items, rest)
    | ']' :: rest => return ([item], rest)
    | _ => none

/-- The entries of an object, at least one, up to the closing brace. -/
def entries? : Nat → List Char → Option (List (Option String × Written) × List Char)
  | 0, _ => none
  | fuel + 1, cs => do
    match skip cs with
    | '"' :: rest =>
      let (key, rest) ← string? rest
      match skip rest with
      | ':' :: rest =>
        let (value, rest) ← value? fuel rest
        match skip rest with
        | ',' :: rest =>
          let (entries, rest) ← entries? fuel rest
          return ((key, value) :: entries, rest)
        | '\x7d' :: rest => return ([(key, value)], rest)
        | _ => none
      | _ => none
    | _ => none

end

def ofText (text : String) : Option Written :=
  let cs := text.toList
  match value? (2 * cs.length + 2) cs with
  | some (value, rest) => if skip rest = [] then some value else none
  | none => none

end Written

end ScriptCore
