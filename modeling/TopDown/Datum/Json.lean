import TopDown.Datum

/-!
# Data as JSON text

A reader takes a part from the front of a text and leaves a shorter rest, so every reading ends.

* A number is a natural number only if it is written with digits alone. A sign, a fraction or an
  exponent makes it another number, whatever its value.
* A record gives each name once: the last value counts.
* `Datum.ofJson?` reads a whole text.
-/

namespace TopDown.Datum

namespace Json

/-- What is left of a text after a part was taken from its front. -/
abbrev Rest (cs : List Char) := { rest : List Char // rest.length < cs.length }

def isBlank (c : Char) : Bool := c == ' ' || c == '\t' || c == '\n' || c == '\r'

def skipBlanks (cs : List Char) : List Char := cs.dropWhile isBlank

theorem length_skipBlanks_le (cs : List Char) : (skipBlanks cs).length ≤ cs.length :=
  (List.dropWhile_sublist _).length_le

theorem length_lt_of_skipBlanks {cs tail : List Char} {c : Char}
    (h : skipBlanks cs = c :: tail) : tail.length < cs.length := by
  have := length_skipBlanks_le cs
  rw [h, List.length_cons] at this
  exact this

/-! ## Numbers and names of values -/

/-- Digits, without a zero in front of others. -/
def isWhole : List Char → Bool
  | [] => false
  | ['0'] => true
  | c :: cs => c != '0' && (c :: cs).all Char.isDigit

def wholeNumber (digits : List Char) : Nat :=
  digits.foldl (fun n c => 10 * n + (c.toNat - '0'.toNat)) 0

def isDigits (cs : List Char) : Bool := !cs.isEmpty && cs.all Char.isDigit

/-- Nothing, or an exponent with or without a sign. -/
def isExponent : List Char → Bool
  | [] => true
  | e :: cs =>
    (e == 'e' || e == 'E') &&
      match cs with
      | '+' :: cs => isDigits cs
      | '-' :: cs => isDigits cs
      | cs => isDigits cs

/-- Nothing, or a fraction, an exponent, or one after the other. -/
def isFraction : List Char → Bool
  | '.' :: cs => isDigits (cs.takeWhile Char.isDigit) && isExponent (cs.dropWhile Char.isDigit)
  | cs => isExponent cs

def isUnsigned (cs : List Char) : Bool :=
  isWhole (cs.takeWhile Char.isDigit) && isFraction (cs.dropWhile Char.isDigit)

def isNumber : List Char → Bool
  | '-' :: cs => isUnsigned cs
  | cs => isUnsigned cs

/-- The value that a word stands for. Digits alone write a natural number. -/
def ofWord? (word : List Char) : Option Datum :=
  if word = "null".toList then some .null
  else if word = "true".toList then some (.truth true)
  else if word = "false".toList then some (.truth false)
  else if isWhole word then some (.nat (wholeNumber word))
  else if isNumber word then some .number
  else none

def isWordCharacter (c : Char) : Bool := c.isAlphanum || c == '+' || c == '-' || c == '.'

/-! ## Text -/

def hexDigit? (c : Char) : Option Nat :=
  if c.isDigit then some (c.toNat - '0'.toNat)
  else if 'a' ≤ c ∧ c ≤ 'f' then some (c.toNat - 'a'.toNat + 10)
  else if 'A' ≤ c ∧ c ≤ 'F' then some (c.toNat - 'A'.toNat + 10)
  else none

def hexNumber? (digits : List Char) : Option Nat :=
  digits.foldlM (fun n c => (hexDigit? c).map (16 * n + ·)) 0

def escape? : Char → Option Char
  | '"' => some '"'
  | '\\' => some '\\'
  | '/' => some '/'
  | 'b' => some '\x08'
  | 'f' => some '\x0c'
  | 'n' => some '\n'
  | 'r' => some '\r'
  | 't' => some '\t'
  | _ => none

/-- The code units of a text up to its closing quote, after those in `done`, last first. -/
def units? (done : List Nat) : List Char → Option (List Nat × List Char)
  | [] => none
  | '"' :: rest => some (done.reverse, rest)
  | '\\' :: 'u' :: a :: b :: c :: d :: rest => do
    units? ((← hexNumber? [a, b, c, d]) :: done) rest
  | '\\' :: c :: rest => do units? ((← escape? c).toNat :: done) rest
  | c :: rest => if c < ' ' then none else units? (c.toNat :: done) rest

theorem length_lt_of_units? {done units : List Nat} {cs rest : List Char}
    (h : units? done cs = some (units, rest)) : rest.length < cs.length := by
  fun_induction units? done cs with
  | case1 => cases h
  | case2 =>
    cases h
    exact Nat.lt_succ_self _
  | case3 done a b c d tail ih =>
    obtain ⟨n, _, h⟩ := Option.bind_eq_some_iff.1 h
    have := ih n h
    rw [List.length_cons, List.length_cons, List.length_cons, List.length_cons,
      List.length_cons, List.length_cons]
    omega
  | case4 done c tail _ ih =>
    obtain ⟨e, _, h⟩ := Option.bind_eq_some_iff.1 h
    have := ih e h
    rw [List.length_cons, List.length_cons]
    omega
  | case5 => cases h
  | case6 done c tail _ _ _ _ ih => exact Nat.lt_succ_of_lt (ih h)

/-- A code unit that opens a pair. -/
def isLeadingHalf (n : Nat) : Bool := 0xD800 ≤ n && n < 0xDC00

def isTrailingHalf (n : Nat) : Bool := 0xDC00 ≤ n && n < 0xE000

/-- The text of code units, after the characters in `done`, last first. A pair makes one
character, and half a pair makes none. -/
def ofUnits? (done : List Char) : List Nat → Option String
  | [] => some (String.ofList done.reverse)
  | n :: ns =>
    if isLeadingHalf n then
      match ns with
      | [] => none
      | m :: ns =>
        if isTrailingHalf m then
          ofUnits? (Char.ofNat (0x10000 + (n - 0xD800) * 0x400 + (m - 0xDC00)) :: done) ns
        else none
    else if isTrailingHalf n then none
    else ofUnits? (Char.ofNat n :: done) ns

def text? (cs : List Char) : Option (String × Rest cs) :=
  match h : units? [] cs with
  | none => none
  | some (units, rest) => (ofUnits? [] units).map fun s => (s, ⟨rest, length_lt_of_units? h⟩)

/-! ## Values -/

def lastOfEach : List (String × Datum) → List (String × Datum)
  | [] => []
  | field :: fields =>
    if fields.any (·.1 == field.1) then lastOfEach fields else field :: lastOfEach fields

/-- What is left of the end of a text is left of the whole text. -/
def Rest.widen {cs tail : List Char} (h : tail.length ≤ cs.length) (rest : Rest tail) : Rest cs :=
  ⟨rest.1, Nat.lt_of_lt_of_le rest.2 h⟩

mutual

def value? (cs : List Char) : Option (Datum × Rest cs) :=
  match h : skipBlanks cs with
  | [] => none
  | '"' :: tail => do
    let (s, rest) ← text? tail
    return (.text s, rest.widen (Nat.le_of_lt (length_lt_of_skipBlanks h)))
  | '[' :: tail => do
    have := length_lt_of_skipBlanks h
    let (items, rest) ← list? tail
    return (.list items, rest.widen (Nat.le_of_lt this))
  | '{' :: tail => do
    have := length_lt_of_skipBlanks h
    let (fields, rest) ← record? tail
    return (.record (lastOfEach fields), rest.widen (Nat.le_of_lt this))
  | c :: tail => do
    let value ← ofWord? (c :: tail.takeWhile isWordCharacter)
    return (value, ⟨tail.dropWhile isWordCharacter, Nat.lt_of_le_of_lt
      (List.dropWhile_sublist _).length_le (length_lt_of_skipBlanks h)⟩)
termination_by (cs.length, 0)

def list? (cs : List Char) : Option (List Datum × Rest cs) :=
  match h : skipBlanks cs with
  | ']' :: tail => some ([], ⟨tail, length_lt_of_skipBlanks h⟩)
  | _ => items? cs
termination_by (cs.length, 2)

/-- Reads one item or more and the bracket behind them. -/
def items? (cs : List Char) : Option (List Datum × Rest cs) := do
  let (item, ⟨rest, hr⟩) ← value? cs
  match h : skipBlanks rest with
  | ',' :: tail =>
    have := length_lt_of_skipBlanks h
    let (items, rest) ← items? tail
    return (item :: items, rest.widen (by omega))
  | ']' :: tail => return ([item], ⟨tail, Nat.lt_trans (length_lt_of_skipBlanks h) hr⟩)
  | _ => none
termination_by (cs.length, 1)

def record? (cs : List Char) : Option (List (String × Datum) × Rest cs) :=
  match h : skipBlanks cs with
  | '}' :: tail => some ([], ⟨tail, length_lt_of_skipBlanks h⟩)
  | _ => fields? cs
termination_by (cs.length, 2)

def fields? (cs : List Char) : Option (List (String × Datum) × Rest cs) :=
  match h : skipBlanks cs with
  | '"' :: tail => do
    have := length_lt_of_skipBlanks h
    let (name, ⟨rest, _⟩) ← text? tail
    match h : skipBlanks rest with
    | ':' :: tail =>
      have := length_lt_of_skipBlanks h
      let (value, ⟨rest, _⟩) ← value? tail
      match h : skipBlanks rest with
      | ',' :: tail =>
        have := length_lt_of_skipBlanks h
        let (fields, rest) ← fields? tail
        return ((name, value) :: fields, rest.widen (by omega))
      | '}' :: tail =>
        have := length_lt_of_skipBlanks h
        return ([(name, value)], ⟨tail, by omega⟩)
      | _ => none
    | _ => none
  | _ => none
termination_by (cs.length, 1)

end

end Json

/-- Reads a datum from a text that holds nothing else. -/
def ofJson? (text : String) : Option Datum := do
  let (value, rest) ← Json.value? text.toList
  if Json.skipBlanks rest.1 = [] then some value else none

end TopDown.Datum
