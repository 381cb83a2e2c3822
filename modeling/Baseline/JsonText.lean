import Mathlib.Data.List.TakeWhile
import Mathlib.Data.Nat.Notation
import Mathlib.Tactic.Common

/-!
# JSON

Values whose numbers are integers, their text without white space, and how a text is read. An
escape of half a character, which no text of a value has, is refused. A text that is written is
read back (`parse_stringify`), so it is the text of one value only.
-/

namespace JsonText

inductive Value
  | null
  | boolean (b : Bool)
  | number (n : ℤ)
  | string (s : List Char)
  | array (elements : List Value)
  | object (properties : List (List Char × Value))

namespace Value

/-- A property, of which the last of a name counts. -/
def get (name : List Char) : Value → Option Value
  | object properties => (properties.reverse.find? fun p => p.1 = name).map Prod.snd
  | _ => none

def asString : Value → Option (List Char)
  | string s => some s
  | _ => none

def asNumber : Value → Option ℤ
  | number n => some n
  | _ => none

def asBoolean : Value → Option Bool
  | boolean b => some b
  | _ => none

def asArray : Value → Option (List Value)
  | array elements => some elements
  | _ => none

end Value

/-! ## Writing -/

def hexDigits (n : ℕ) : List Char := [Nat.digitChar (n / 16), Nat.digitChar (n % 16)]

/-- A character inside a string. -/
def escape (c : Char) : List Char :=
  if c = '"' then ['\\', '"']
  else if c = '\\' then ['\\', '\\']
  else if c = '\x08' then ['\\', 'b']
  else if c = '\x0c' then ['\\', 'f']
  else if c = '\n' then ['\\', 'n']
  else if c = '\r' then ['\\', 'r']
  else if c = '\t' then ['\\', 't']
  else if c.toNat < 32 then ['\\', 'u', '0', '0'] ++ hexDigits c.toNat
  else [c]

def quote (s : List Char) : List Char := '"' :: (s.flatMap escape ++ ['"'])

def numeral (n : ℤ) : List Char :=
  if n < 0 then '-' :: Nat.toDigits 10 n.natAbs else Nat.toDigits 10 n.natAbs

mutual

def stringify : Value → List Char
  | .null => ['n', 'u', 'l', 'l']
  | .boolean true => ['t', 'r', 'u', 'e']
  | .boolean false => ['f', 'a', 'l', 's', 'e']
  | .number n => numeral n
  | .string s => quote s
  | .array [] => ['[', ']']
  | .array (v :: vs) => '[' :: (stringify v ++ stringifyRest vs)
  | .object [] => ['{', '}']
  | .object ((name, v) :: ps) =>
    '{' :: (quote name ++ ':' :: (stringify v ++ stringifyProperties ps))

def stringifyRest : List Value → List Char
  | [] => [']']
  | v :: vs => ',' :: (stringify v ++ stringifyRest vs)

def stringifyProperties : List (List Char × Value) → List Char
  | [] => ['}']
  | (name, v) :: ps => ',' :: (quote name ++ ':' :: (stringify v ++ stringifyProperties ps))

end

/-! ## Reading -/

def isSpace (c : Char) : Bool := c = ' ' ∨ c = '\t' ∨ c = '\n' ∨ c = '\r'

def hexVal (c : Char) : Option ℕ :=
  if '0' ≤ c ∧ c ≤ '9' then some (c.toNat - 48)
  else if 'a' ≤ c ∧ c ≤ 'f' then some (c.toNat - 87)
  else if 'A' ≤ c ∧ c ≤ 'F' then some (c.toNat - 55)
  else none

/-- The character of four hex digits. -/
def unicode (a b c d : Char) : Option Char := do
  let n := 16 * (16 * (16 * (← hexVal a) + (← hexVal b)) + (← hexVal c)) + (← hexVal d)
  if n.isValidChar then some (Char.ofNat n) else none

def unescape : Char → Option Char
  | '"' => some '"'
  | '\\' => some '\\'
  | '/' => some '/'
  | 'b' => some '\x08'
  | 'f' => some '\x0c'
  | 'n' => some '\n'
  | 'r' => some '\r'
  | 't' => some '\t'
  | _ => none

/-- The rest of a string and what comes after its closing quote. -/
def parseString : List Char → Option (List Char × List Char)
  | [] => none
  | '"' :: s => some ([], s)
  | '\\' :: 'u' :: a :: b :: c :: d :: s => do
    let char ← unicode a b c d
    let (text, s) ← parseString s
    some (char :: text, s)
  | '\\' :: c :: s => do
    let char ← unescape c
    let (text, s) ← parseString s
    some (char :: text, s)
  | c :: s =>
    if c.toNat < 32 ∨ c = '\\' then none
    else (parseString s).map fun (text, s) => (c :: text, s)

/-- Digits with no zero in front. -/
def parseDigits (s : List Char) : Option (ℕ × List Char) :=
  match s.takeWhile Char.isDigit with
  | [] => none
  | '0' :: _ :: _ => none
  | digits => some (Nat.ofDigitChars 10 digits 0, s.dropWhile Char.isDigit)

def parseNumber : List Char → Option (Value × List Char)
  | '-' :: s => (parseDigits s).map fun (n, s) => (.number (-n), s)
  | s => (parseDigits s).map fun (n, s) => (.number n, s)

mutual

/-- A value, of no more than so many levels and elements, and what comes after it. -/
def parseValue : ℕ → List Char → Option (Value × List Char)
  | 0, _ => none
  | fuel + 1, s =>
    match s.dropWhile isSpace with
    | 'n' :: 'u' :: 'l' :: 'l' :: s => some (.null, s)
    | 't' :: 'r' :: 'u' :: 'e' :: s => some (.boolean true, s)
    | 'f' :: 'a' :: 'l' :: 's' :: 'e' :: s => some (.boolean false, s)
    | '"' :: s => (parseString s).map fun (text, s) => (.string text, s)
    | '[' :: s =>
      match s.dropWhile isSpace with
      | ']' :: s => some (.array [], s)
      | s => do
        let (v, s) ← parseValue fuel s
        let (vs, s) ← parseRest fuel s
        some (.array (v :: vs), s)
    | '{' :: s =>
      match s.dropWhile isSpace with
      | '}' :: s => some (.object [], s)
      | s => do
        let (p, s) ← parseProperty fuel s
        let (ps, s) ← parseProperties fuel s
        some (.object (p :: ps), s)
    | s => parseNumber s

def parseRest : ℕ → List Char → Option (List Value × List Char)
  | 0, _ => none
  | fuel + 1, s =>
    match s.dropWhile isSpace with
    | ']' :: s => some ([], s)
    | ',' :: s => do
      let (v, s) ← parseValue fuel s
      let (vs, s) ← parseRest fuel s
      some (v :: vs, s)
    | _ => none

def parseProperty : ℕ → List Char → Option ((List Char × Value) × List Char)
  | 0, _ => none
  | fuel + 1, s =>
    match s.dropWhile isSpace with
    | '"' :: s => do
      let (name, s) ← parseString s
      match s.dropWhile isSpace with
      | ':' :: s => (parseValue fuel s).map fun (v, s) => ((name, v), s)
      | _ => none
    | _ => none

def parseProperties : ℕ → List Char → Option (List (List Char × Value) × List Char)
  | 0, _ => none
  | fuel + 1, s =>
    match s.dropWhile isSpace with
    | '}' :: s => some ([], s)
    | ',' :: s => do
      let (p, s) ← parseProperty fuel s
      let (ps, s) ← parseProperties fuel s
      some (p :: ps, s)
    | _ => none

end

def parse (s : List Char) : Option Value :=
  match parseValue (s.length + 1) s with
  | some (v, s) => if s.dropWhile isSpace = [] then some v else none
  | none => none

/-! ## What is written is read back -/

theorem dropWhile_cons {c : Char} (hc : isSpace c = false) (s : List Char) :
    (c :: s).dropWhile isSpace = c :: s := by
  rw [List.dropWhile_cons, hc, if_neg Bool.false_ne_true]

section Strings

theorem hexVal_digitChar : ∀ d < 16, hexVal (Nat.digitChar d) = some d := by decide

/-- A control character is written as the last two of four digits. -/
theorem unicode_hexDigits {c : Char} (hc : c.toNat < 32) :
    unicode '0' '0' (Nat.digitChar (c.toNat / 16)) (Nat.digitChar (c.toNat % 16)) = some c := by
  have hzero : hexVal '0' = some 0 := by decide
  have hhigh := hexVal_digitChar (c.toNat / 16) (by omega)
  have hlow := hexVal_digitChar (c.toNat % 16) (by omega)
  have hvalue : 16 * (16 * (16 * 0 + 0) + c.toNat / 16) + c.toNat % 16 = c.toNat := by omega
  simp only [unicode, hzero, hhigh, hlow, Option.bind_eq_bind, Option.bind_some, hvalue]
  rw [if_pos (show c.toNat.isValidChar from c.valid), Char.ofNat_toNat]

theorem parseString_slash {c d : Char} (hc : c ≠ 'u') (h : unescape c = some d)
    (s : List Char) :
    parseString ('\\' :: c :: s) = (parseString s).map fun (text, s) => (d :: text, s) := by
  rw [parseString]
  · rw [h]
    cases parseString s <;> rfl
  · exact fun _ _ _ _ _ hu _ => hc hu

theorem parseString_escape (c : Char) (s : List Char) :
    parseString (escape c ++ s) = (parseString s).map fun (text, s) => (c :: text, s) := by
  unfold escape
  split_ifs with hquote hslash hb hf hn hr ht hlow
  · subst hquote
    exact parseString_slash (by decide) rfl s
  · subst hslash
    exact parseString_slash (by decide) rfl s
  · subst hb
    exact parseString_slash (by decide) rfl s
  · subst hf
    exact parseString_slash (by decide) rfl s
  · subst hn
    exact parseString_slash (by decide) rfl s
  · subst hr
    exact parseString_slash (by decide) rfl s
  · subst ht
    exact parseString_slash (by decide) rfl s
  · cases h : parseString s <;> simp [parseString, hexDigits, unicode_hexDigits hlow, h]
  · rw [List.cons_append, List.nil_append, parseString]
    · rw [if_neg (not_or.2 ⟨hlow, hslash⟩)]
    · exact hquote
    · exact fun _ _ _ _ _ hc _ => hslash hc
    · exact fun _ _ hc _ => hslash hc

theorem parseString_quote : ∀ (text s : List Char),
    parseString (text.flatMap escape ++ '"' :: s) = some (text, s)
  | [], s => by simp [parseString]
  | c :: text, s => by
    rw [List.flatMap_cons, List.append_assoc, parseString_escape, parseString_quote text s]
    rfl

end Strings

section Numbers

/-- The text does not go on with a digit. -/
def NoDigit (s : List Char) : Prop := ∀ c ∈ s.head?, c.isDigit = false

theorem head_toDigits {n : ℕ} (hn : 0 < n) : (Nat.toDigits 10 n).head? ≠ some '0' := by
  induction n using Nat.strong_induction_on with
  | _ n ih =>
    by_cases h : n < 10
    · have hdigit : ∀ d < 10, 0 < d → Nat.digitChar d ≠ '0' := by decide
      rw [Nat.toDigits_of_lt_base h, List.head?_cons, ne_eq, Option.some.injEq]
      exact hdigit n h hn
    · rw [Nat.toDigits_of_base_le (by decide) (by omega), List.head?_append]
      have hhead := ih (n / 10) (by omega) (by omega)
      rwa [Option.or_of_isSome (by simp)]

theorem parseDigits_toDigits (n : ℕ) {s : List Char} (hs : NoDigit s) :
    parseDigits (Nat.toDigits 10 n ++ s) = some (n, s) := by
  have hdigits : ∀ c ∈ Nat.toDigits 10 n, c.isDigit = true := fun c hc =>
    Nat.isDigit_of_mem_toDigits (by decide) (by decide) hc
  have htake : (Nat.toDigits 10 n ++ s).takeWhile Char.isDigit = Nat.toDigits 10 n := by
    rw [List.takeWhile_append_of_pos hdigits]
    rcases s with _ | ⟨c, s⟩
    · exact List.append_nil _
    · rw [List.takeWhile_cons, hs c rfl, if_neg Bool.false_ne_true, List.append_nil]
  have hdrop : (Nat.toDigits 10 n ++ s).dropWhile Char.isDigit = s := by
    rw [List.dropWhile_append_of_pos hdigits]
    rcases s with _ | ⟨c, s⟩
    · rfl
    · rw [List.dropWhile_cons, hs c rfl, if_neg Bool.false_ne_true]
  have hzero : ∀ c ds, Nat.toDigits 10 n ≠ '0' :: c :: ds := by
    intro c ds h
    rcases Nat.eq_zero_or_pos n with rfl | hn
    · exact absurd (congrArg List.length h) (by simp)
    · exact head_toDigits hn (by rw [h, List.head?_cons])
  unfold parseDigits
  rw [htake, hdrop]
  split
  · rename_i h
    exact absurd h Nat.toDigits_ne_nil
  · rename_i c ds h
    exact absurd h (hzero c ds)
  · rw [Nat.ofDigitChars_toDigits (by decide) (by decide)]

theorem numeral_eq_cons (n : ℤ) :
    ∃ c ds, numeral n = c :: ds ∧ (c = '-' ∨ c.isDigit = true) := by
  unfold numeral
  split_ifs
  · exact ⟨'-', _, rfl, .inl rfl⟩
  · rcases hds : Nat.toDigits 10 n.natAbs with _ | ⟨c, ds⟩
    · exact absurd hds Nat.toDigits_ne_nil
    · exact ⟨c, ds, rfl, .inr (Nat.isDigit_of_mem_toDigits (by decide) (by decide)
        (hds ▸ List.mem_cons_self))⟩

theorem isSpace_of_number {c : Char} (hc : c = '-' ∨ c.isDigit = true) : isSpace c = false := by
  rw [isSpace, decide_eq_false_iff_not]
  rintro (rfl | rfl | rfl | rfl) <;> exact absurd hc (by decide)

theorem parseNumber_numeral (n : ℤ) {s : List Char} (hs : NoDigit s) :
    parseNumber (numeral n ++ s) = some (.number n, s) := by
  have hparse := parseDigits_toDigits n.natAbs hs
  unfold numeral
  split_ifs with hn
  · rw [List.cons_append, parseNumber, hparse, Option.map_some]
    exact congrArg (fun n => some (Value.number n, s)) (by omega : -(n.natAbs : ℤ) = n)
  · unfold parseNumber
    split
    · rename_i s' h
      rcases hds : Nat.toDigits 10 n.natAbs with _ | ⟨c, ds⟩
      · exact absurd hds Nat.toDigits_ne_nil
      · have hc : c.isDigit = true :=
          Nat.isDigit_of_mem_toDigits (by decide) (by decide) (hds ▸ List.mem_cons_self)
        rw [hds, List.cons_append] at h
        rw [(List.cons.inj h).1] at hc
        exact absurd hc (by decide)
    · rw [hparse, Option.map_some]
      exact congrArg (fun n => some (Value.number n, s)) (by omega : (n.natAbs : ℤ) = n)

end Numbers

section Values

/-- How the text of a value starts. -/
theorem stringify_eq_cons (v : Value) :
    ∃ c s, stringify v = c :: s ∧ isSpace c = false ∧ c ≠ ']' := by
  rcases v with _ | (_ | _) | n | text | (_ | ⟨v, vs⟩) | (_ | ⟨⟨name, v⟩, ps⟩)
  · exact ⟨'n', _, rfl, by decide, by decide⟩
  · exact ⟨'f', _, rfl, by decide, by decide⟩
  · exact ⟨'t', _, rfl, by decide, by decide⟩
  · obtain ⟨c, ds, h, hc⟩ := numeral_eq_cons n
    refine ⟨c, ds, by rw [stringify, h], isSpace_of_number hc, ?_⟩
    rintro rfl
    exact absurd hc (by decide)
  · exact ⟨'"', _, by rw [stringify, quote], by decide, by decide⟩
  · exact ⟨'[', _, by rw [stringify], by decide, by decide⟩
  · exact ⟨'[', _, by rw [stringify], by decide, by decide⟩
  · exact ⟨'{', _, by rw [stringify], by decide, by decide⟩
  · exact ⟨'{', _, by rw [stringify], by decide, by decide⟩

theorem noDigit_rest (vs : List Value) (s : List Char) : NoDigit (stringifyRest vs ++ s) := by
  rcases vs with _ | ⟨v, vs⟩
  · rintro c ⟨⟩
    rfl
  · rintro c ⟨⟩
    rfl

theorem noDigit_properties (ps : List (List Char × Value)) (s : List Char) :
    NoDigit (stringifyProperties ps ++ s) := by
  rcases ps with _ | ⟨⟨name, v⟩, ps⟩
  · rintro c ⟨⟩
    rfl
  · rintro c ⟨⟩
    rfl

theorem parseValue_of_number {c : Char} (hc : c = '-' ∨ c.isDigit = true) (fuel : ℕ)
    (s : List Char) : parseValue (fuel + 1) (c :: s) = parseNumber (c :: s) := by
  rw [parseValue, dropWhile_cons (isSpace_of_number hc)]
  split
  all_goals first
    | rfl
    | rename_i h
      rw [(List.cons.inj h).1] at hc
      exact absurd hc (by decide)

theorem parseProperty_of_value (name : List Char) {v : Value} {fuel : ℕ} {s : List Char}
    (hv : parseValue fuel (stringify v ++ s) = some (v, s)) :
    parseProperty (fuel + 1) (quote name ++ ':' :: (stringify v ++ s)) = some ((name, v), s) := by
  have hname : parseString (name.flatMap escape ++ ['"'] ++ ':' :: (stringify v ++ s))
      = some (name, ':' :: (stringify v ++ s)) := by
    rw [List.append_assoc]
    exact parseString_quote name _
  rw [quote, List.cons_append, parseProperty, dropWhile_cons (by decide)]
  simp only [hname, Option.bind_eq_bind, Option.bind_some, dropWhile_cons (c := ':') (by decide),
    hv, Option.map_some]

mutual

theorem parseValue_stringify : ∀ (v : Value) {fuel : ℕ} {s : List Char},
    (stringify v).length ≤ fuel → NoDigit s → parseValue fuel (stringify v ++ s) = some (v, s)
  | v, 0, s, hfuel, _ => by
    obtain ⟨c, t, h, -⟩ := stringify_eq_cons v
    rw [h] at hfuel
    exact absurd hfuel (Nat.not_succ_le_zero _)
  | .null, fuel + 1, s, _, _ => by rfl
  | .boolean true, fuel + 1, s, _, _ => by rfl
  | .boolean false, fuel + 1, s, _, _ => by rfl
  | .number n, fuel + 1, s, _, hs => by
    obtain ⟨c, ds, h, hc⟩ := numeral_eq_cons n
    have hnum := parseNumber_numeral n hs
    rw [stringify]
    rw [h, List.cons_append] at hnum ⊢
    rw [parseValue_of_number hc, hnum]
  | .string text, fuel + 1, s, _, _ => by
    have htext := parseString_quote text s
    rw [stringify, quote, List.cons_append, List.append_assoc, parseValue,
      dropWhile_cons (by decide)]
    exact congrArg (Option.map _) htext
  | .array [], fuel + 1, s, _, _ => by rfl
  | .array (v :: vs), fuel + 1, s, hfuel, _ => by
    rw [stringify, List.length_cons, List.length_append] at hfuel
    obtain ⟨c, t, hstart, hspace, hc⟩ := stringify_eq_cons v
    have hv : parseValue fuel (stringify v ++ (stringifyRest vs ++ s))
        = some (v, stringifyRest vs ++ s) :=
      parseValue_stringify v (by omega) (noDigit_rest vs s)
    have hvs : parseRest fuel (stringifyRest vs ++ s) = some (vs, s) :=
      parseRest_stringify vs (by omega)
    rw [stringify, List.cons_append, List.append_assoc, parseValue, dropWhile_cons (by decide)]
    rw [hstart, List.cons_append] at hv ⊢
    simp only [dropWhile_cons hspace]
    split
    · rename_i h
      exact absurd (List.cons.inj h).1 hc
    · simp only [hv, hvs, Option.bind_eq_bind, Option.bind_some]
  | .object [], fuel + 1, s, _, _ => by rfl
  | .object ((name, v) :: ps), 1, s, hfuel, _ => by
    rw [stringify, quote] at hfuel
    simp only [List.length_cons, List.length_append] at hfuel
    omega
  | .object ((name, v) :: ps), fuel + 2, s, hfuel, _ => by
    rw [stringify, quote] at hfuel
    simp only [List.length_cons, List.length_append] at hfuel
    have hv : parseValue fuel (stringify v ++ (stringifyProperties ps ++ s))
        = some (v, stringifyProperties ps ++ s) :=
      parseValue_stringify v (by omega) (noDigit_properties ps s)
    have hp := parseProperty_of_value name hv
    have hps : parseProperties (fuel + 1) (stringifyProperties ps ++ s) = some (ps, s) :=
      parseProperties_stringify ps (by omega)
    have hquote : quote name = '"' :: (name.flatMap escape ++ ['"']) := rfl
    rw [stringify, List.cons_append, List.append_assoc, List.cons_append, List.append_assoc,
      parseValue, dropWhile_cons (by decide)]
    rw [hquote, List.cons_append] at hp ⊢
    simp only [dropWhile_cons (c := '"') (by decide)]
    split
    · rename_i h
      exact absurd (List.cons.inj h).1 (by decide)
    · simp only [hp, hps, Option.bind_eq_bind, Option.bind_some]

theorem parseRest_stringify : ∀ (vs : List Value) {fuel : ℕ} {s : List Char},
    (stringifyRest vs).length ≤ fuel → parseRest fuel (stringifyRest vs ++ s) = some (vs, s)
  | [], 0, _, hfuel | _ :: _, 0, _, hfuel => by
    rw [stringifyRest, List.length_cons] at hfuel
    exact absurd hfuel (Nat.not_succ_le_zero _)
  | [], fuel + 1, s, _ => by rfl
  | v :: vs, fuel + 1, s, hfuel => by
    rw [stringifyRest, List.length_cons, List.length_append] at hfuel
    have hv : parseValue fuel (stringify v ++ (stringifyRest vs ++ s))
        = some (v, stringifyRest vs ++ s) :=
      parseValue_stringify v (by omega) (noDigit_rest vs s)
    have hvs : parseRest fuel (stringifyRest vs ++ s) = some (vs, s) :=
      parseRest_stringify vs (by omega)
    rw [stringifyRest, List.cons_append, List.append_assoc, parseRest,
      dropWhile_cons (by decide)]
    simp only [hv, hvs, Option.bind_eq_bind, Option.bind_some]

theorem parseProperties_stringify : ∀ (ps : List (List Char × Value)) {fuel : ℕ} {s : List Char},
    (stringifyProperties ps).length ≤ fuel →
      parseProperties fuel (stringifyProperties ps ++ s) = some (ps, s)
  | [], 0, _, hfuel | _ :: _, 0, _, hfuel => by
    rw [stringifyProperties, List.length_cons] at hfuel
    exact absurd hfuel (Nat.not_succ_le_zero _)
  | [], fuel + 1, s, _ => by rfl
  | (name, v) :: ps, 1, s, hfuel => by
    rw [stringifyProperties, quote] at hfuel
    simp only [List.length_cons, List.length_append] at hfuel
    omega
  | (name, v) :: ps, fuel + 2, s, hfuel => by
    rw [stringifyProperties, quote] at hfuel
    simp only [List.length_cons, List.length_append] at hfuel
    have hv : parseValue fuel (stringify v ++ (stringifyProperties ps ++ s))
        = some (v, stringifyProperties ps ++ s) :=
      parseValue_stringify v (by omega) (noDigit_properties ps s)
    have hp := parseProperty_of_value name hv
    have hps : parseProperties (fuel + 1) (stringifyProperties ps ++ s) = some (ps, s) :=
      parseProperties_stringify ps (by omega)
    rw [stringifyProperties, List.cons_append, List.append_assoc, List.cons_append,
      List.append_assoc, parseProperties, dropWhile_cons (by decide)]
    simp only [hp, hps, Option.bind_eq_bind, Option.bind_some]

end

/-- A value's text is read back as the value. -/
theorem parse_stringify (v : Value) : parse (stringify v) = some v := by
  have hv : parseValue ((stringify v).length + 1) (stringify v ++ []) = some (v, []) :=
    parseValue_stringify v (Nat.le_succ _) (by rintro c ⟨⟩)
  rw [List.append_nil] at hv
  simp [parse, hv]

end Values

end JsonText
