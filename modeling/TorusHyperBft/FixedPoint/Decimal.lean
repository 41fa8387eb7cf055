import TorusHyperBft.FixedPoint
import TorusHyperBft.Program

namespace TorusHyperBft.FixedPoint

open List

/-! The decimal text of a fixed-point value, and reading it back. -/

def decimals : Nat := 8

def padLeft (digits : List Char) : List Char :=
  List.replicate (decimals - digits.length) '0' ++ digits

def padRight (digits : List Char) : List Char :=
  digits ++ List.replicate (decimals - digits.length) '0'

def intText (value : Int) : List Char :=
  if value < 0 then '-' :: Nat.toDigits 10 value.natAbs else Nat.toDigits 10 value.natAbs

def display (raw : Int) : String :=
  let whole := raw.tdiv scale
  let frac := (raw.tmod scale).natAbs
  if raw < 0 ∧ whole = 0 then
    String.ofList ('-' :: '0' :: '.' :: padLeft (Nat.toDigits 10 frac))
  else String.ofList (intText whole ++ '.' :: padLeft (Nat.toDigits 10 frac))

inductive DecimalError where
  | empty
  | missingDigits
  | invalid (text : String)
  | tooManyPlaces
  | invalidWhole
  | invalidFraction
  | overflow
deriving DecidableEq

def stripMinus : List Char → Bool × List Char
  | '-' :: rest => (true, rest)
  | text => (false, text)

/-- The text before the first point and after it; without a point, all of it and nothing. -/
def splitPoint (body : List Char) : List Char × List Char :=
  (body.takeWhile fun char => char ≠ '.', (body.dropWhile fun char => char ≠ '.').drop 1)

def parseDigits (digits : List Char) : Option Int := fit (Nat.ofDigitChars 10 digits 0)

def readPart (part digits : List Char) (error : DecimalError) : Except DecimalError Int :=
  if part.isEmpty then .ok 0 else (parseDigits digits).elim (.error error) .ok

def assemble (wholeStr fracStr : List Char) : Except DecimalError Int := do
  let whole ← readPart wholeStr wholeStr .invalidWhole
  let frac ← readPart fracStr (padRight fracStr) .invalidFraction
  ((fit (whole * scale)).bind fun scaled => fit (scaled + frac)).elim (.error .overflow) .ok

def fromStr (text : String) : Except DecimalError Int :=
  if text.toList.isEmpty then .error .empty
  else
    let (negative, body) := stripMinus text.toList
    let (wholeStr, fracStr) := splitPoint body
    if wholeStr.isEmpty && fracStr.isEmpty then .error .missingDigits
    else if !(wholeStr ++ fracStr).all Char.isDigit then .error (.invalid text)
    else if decimals < fracStr.length then .error .tooManyPlaces
    else
      match assemble wholeStr fracStr with
      | .error error => .error error
      | .ok raw => .ok (if negative then -raw else raw)

example : display (-50000000) = "-0.50000000" := by decide

example : fromStr ".5" = .ok 50000000 := by decide

/-- A decimal number and the value it denotes: `digits` in all, `places` of them behind the point. -/
structure Denotes (text : String) (raw : Int) : Prop where
  parts : ∃ (negative : Bool) (whole frac : List Char) (point : Bool),
    text.toList = (if negative then ['-'] else []) ++ (whole ++ (if point then '.' :: frac else frac)) ∧
      (point = false → frac = []) ∧ (∀ digit ∈ whole ++ frac, digit.isDigit = true) ∧
      whole ++ frac ≠ [] ∧ frac.length ≤ decimals ∧
      raw * 10 ^ frac.length = (if negative then -1 else 1) *
        (Nat.ofDigitChars 10 (whole ++ frac) 0 * scale)

section Read

variable {whole frac : List Char} {raw : Int}

def valueOf (whole frac : List Char) : Int :=
  Nat.ofDigitChars 10 whole 0 * scale + Nat.ofDigitChars 10 (padRight frac) 0

theorem elim_eq_ok {value : Option Int} {error : DecimalError} {result : Int} :
    value.elim (.error error) .ok = Except.ok result ↔ value = some result := by
  cases value with
  | none => simp
  | some value => simp

theorem fit_natCast {value : Nat} : fit value = some raw ↔ raw = value ∧
    (value : Int) ≤ maxRaw := by
  rw [fit_eq_some]
  have least : minRaw ≤ 0 := by decide
  constructor
  · rintro ⟨-, most, same⟩
    exact ⟨same, most⟩
  · rintro ⟨same, most⟩
    exact ⟨by omega, most, same⟩

theorem readPart_eq_ok {part digits : List Char} {error : DecimalError}
    (empty : part = [] → Nat.ofDigitChars 10 digits 0 = 0) :
    readPart part digits error = .ok raw ↔
      raw = (Nat.ofDigitChars 10 digits 0 : Nat) ∧ (Nat.ofDigitChars 10 digits 0 : Int) ≤ maxRaw := by
  cases part with
  | nil =>
    have most : (0 : Int) ≤ maxRaw := by decide
    simp [readPart, empty rfl, most, eq_comm]
  | cons digit rest =>
    simp only [readPart, isEmpty_cons, Bool.false_eq_true, if_false]
    rw [elim_eq_ok, parseDigits, fit_natCast]

theorem assemble_eq_ok :
    assemble whole frac = .ok raw ↔ raw = valueOf whole frac ∧ valueOf whole frac ≤ maxRaw := by
  have scaled : ∀ value : Nat, fit ((value : Int) * scale) = fit ((value * 100000000 : Nat) : Int) := by
    intro value
    congr 1
  have emptyFrac : frac = [] → Nat.ofDigitChars 10 (padRight frac) 0 = 0 := by
    rintro rfl
    decide
  have emptyWhole : whole = [] → Nat.ofDigitChars 10 whole 0 = 0 := by
    rintro rfl
    rfl
  have unfolded : valueOf whole frac = ((Nat.ofDigitChars 10 whole 0 * 100000000 +
      Nat.ofDigitChars 10 (padRight frac) 0 : Nat) : Int) := by
    simp [valueOf, scale]
  simp only [assemble, Program.bind_eq_ok, readPart_eq_ok emptyWhole, readPart_eq_ok emptyFrac, elim_eq_ok,
    Option.bind_eq_some_iff]
  rw [unfolded]
  clear unfolded
  constructor
  · rintro ⟨_, ⟨rfl, -⟩, _, ⟨rfl, -⟩, scaledValue, isScaled, fits⟩
    rw [scaled, fit_natCast] at isScaled
    rw [isScaled.1, ← Int.natCast_add, fit_natCast] at fits
    exact fits
  · rintro ⟨same, most⟩
    refine ⟨_, ⟨rfl, by omega⟩, _, ⟨rfl, by omega⟩,
      ((Nat.ofDigitChars 10 whole 0 * 100000000 : Nat) : Int), ?_, ?_⟩
    · rw [scaled, fit_natCast]
      refine ⟨rfl, le_trans ?_ most⟩
      exact Int.ofNat_le.mpr (Nat.le_add_right _ _)
    · rw [← Int.natCast_add, fit_natCast]
      exact ⟨same, most⟩

end Read

section Print

variable {raw : Int}

def signText (negative : Bool) : List Char := if negative then ['-'] else []

theorem display_eq : display raw = String.ofList (signText (decide (raw < 0)) ++
    (Nat.toDigits 10 (raw.natAbs / 100000000) ++
      '.' :: padLeft (Nat.toDigits 10 (raw.natAbs % 100000000)))) := by
  have wholeAbs : (raw.tdiv scale).natAbs = raw.natAbs / 100000000 := by
    rw [Int.natAbs_tdiv]
    rfl
  have fracAbs : (raw.tmod scale).natAbs = raw.natAbs % 100000000 := by
    rw [Int.natAbs_tmod]
    rfl
  simp only [display, fracAbs, intText, wholeAbs]
  rcases lt_or_ge raw 0 with below | above
  · have wholeNonpos : raw.tdiv scale ≤ 0 := by
      have away : 0 ≤ (-raw).tdiv scale := Int.tdiv_nonneg (by omega) (by decide)
      rw [Int.neg_tdiv] at away
      omega
    by_cases wholeZero : raw.tdiv scale = 0
    · have quotient : raw.natAbs / 100000000 = 0 := by
        rw [← wholeAbs, wholeZero]
        rfl
      simp [below, wholeZero, quotient, signText]
    · have wholeNeg : raw.tdiv scale < 0 := by omega
      simp [below, wholeZero, wholeNeg, signText]
  · have wholeNonneg : 0 ≤ raw.tdiv scale := Int.tdiv_nonneg above (by decide)
    have notBelow : ¬ raw < 0 := by omega
    have wholeNotNeg : ¬ raw.tdiv scale < 0 := by omega
    simp [notBelow, wholeNotNeg, signText]

theorem length_padLeft {frac : Nat} (below : frac < 100000000) :
    (padLeft (Nat.toDigits 10 frac)).length = decimals := by
  have short : (Nat.toDigits 10 frac).length ≤ decimals :=
    (Nat.length_toDigits_le_iff (by decide) (by decide)).mpr below
  rw [padLeft, length_append, length_replicate]
  omega

theorem ofDigitChars_padLeft {frac : Nat} :
    Nat.ofDigitChars 10 (padLeft (Nat.toDigits 10 frac)) 0 = frac := by
  rw [padLeft, Nat.ofDigitChars_append, Nat.ofDigitChars_replicate_zero, Nat.mul_zero]
  exact Nat.ofDigitChars_ten_toDigits

theorem valueOf_display : valueOf (Nat.toDigits 10 (raw.natAbs / 100000000))
    (padLeft (Nat.toDigits 10 (raw.natAbs % 100000000))) = (raw.natAbs : Int) := by
  have full : padRight (padLeft (Nat.toDigits 10 (raw.natAbs % 100000000))) =
      padLeft (Nat.toDigits 10 (raw.natAbs % 100000000)) := by
    rw [padRight, length_padLeft (Nat.mod_lt _ (by decide))]
    simp
  rw [valueOf, full, ofDigitChars_padLeft, Nat.ofDigitChars_ten_toDigits, scale]
  omega

theorem isDigit_of_mem_padLeft {frac : Nat} {char : Char}
    (mem : char ∈ padLeft (Nat.toDigits 10 frac)) : char.isDigit = true := by
  rw [padLeft, mem_append] at mem
  rcases mem with zero | digit
  · rw [eq_of_mem_replicate zero]
    decide
  · exact Nat.isDigit_of_mem_toDigits (by decide) (by decide) digit

end Print

section Text

variable {negative : Bool} {whole frac body : List Char} {text : String} {raw : Int}

theorem stripMinus_text (chars : List Char) :
    signText (stripMinus chars).1 ++ (stripMinus chars).2 = chars := by
  unfold stripMinus
  split <;> simp [signText]

theorem stripMinus_sign (start : ∀ rest, body ≠ '-' :: rest) :
    stripMinus (signText negative ++ body) = (negative, body) := by
  cases negative with
  | true => rfl
  | false =>
    simp only [signText, Bool.false_eq_true, if_false, nil_append]
    unfold stripMinus
    split
    · rename_i rest
      exact (start rest rfl).elim
    · rfl

theorem splitPoint_point (free : ∀ char ∈ whole, char ≠ '.') :
    splitPoint (whole ++ '.' :: frac) = (whole, frac) := by
  have pass : ∀ char ∈ whole, decide (char ≠ '.') = true := by
    intro char mem
    exact decide_eq_true (free char mem)
  rw [splitPoint, takeWhile_append_of_pos pass, dropWhile_append_of_pos pass]
  simp

theorem splitPoint_text (body : List Char) :
    (body = (splitPoint body).1 ∧ (splitPoint body).2 = []) ∨
      body = (splitPoint body).1 ++ '.' :: (splitPoint body).2 := by
  have halves : body.takeWhile (fun char => char ≠ '.') ++
      body.dropWhile (fun char => char ≠ '.') = body := takeWhile_append_dropWhile
  simp only [splitPoint]
  cases rest : body.dropWhile fun char => char ≠ '.' with
  | nil =>
    rw [rest, append_nil] at halves
    exact Or.inl ⟨halves.symm, rfl⟩
  | cons char tail =>
    have stops : ¬ (char ≠ '.') := by
      have := head_dropWhile_not (fun char => decide (char ≠ '.'))
        (l := body) (by rw [rest]; exact cons_ne_nil _ _)
      simpa only [rest, head_cons, decide_eq_false_iff_not] using this
    rw [rest] at halves
    rw [not_not] at stops
    rw [stops] at halves
    exact Or.inr halves.symm

theorem fromStr_text (digits : ∀ char ∈ whole ++ frac, char.isDigit = true) (present : whole ≠ [])
    (places : frac.length ≤ decimals) :
    fromStr (String.ofList (signText negative ++ (whole ++ '.' :: frac))) = .ok raw ↔
      ∃ value, assemble whole frac = .ok value ∧ raw = if negative then -value else value := by
  have start : ∀ rest, whole ++ '.' :: frac ≠ '-' :: rest := by
    intro rest same
    cases whole with
    | nil => exact present rfl
    | cons char tail =>
      have digit := digits char (by simp)
      rw [cons_append, List.cons.injEq] at same
      rw [same.1] at digit
      exact absurd digit (by decide)
  have free : ∀ char ∈ whole, char ≠ '.' := by
    rintro char mem rfl
    exact absurd (digits '.' (mem_append_left _ mem)) (by decide)
  have nonempty : (signText negative ++ (whole ++ '.' :: frac)).isEmpty = false := by
    simp
  have all : (whole ++ frac).all Char.isDigit = true := all_eq_true.mpr digits
  have wholePresent : whole.isEmpty = false := by simpa using present
  have fits : ¬ decimals < frac.length := by omega
  simp only [fromStr, String.toList_ofList, nonempty, stripMinus_sign start, splitPoint_point free,
    wholePresent, all, fits, Bool.false_and, Bool.not_true, Bool.false_eq_true, if_false]
  cases assemble whole frac with
  | error error => simp
  | ok value => simp [eq_comm]

theorem fromStr_display {value : Int} : fromStr (display raw) = .ok value ↔
    value = raw ∧ (raw.natAbs : Int) ≤ maxRaw := by
  have digits : ∀ char ∈ Nat.toDigits 10 (raw.natAbs / 100000000) ++
      padLeft (Nat.toDigits 10 (raw.natAbs % 100000000)), char.isDigit = true := by
    intro char mem
    rcases mem_append.mp mem with whole | frac
    · exact Nat.isDigit_of_mem_toDigits (by decide) (by decide) whole
    · exact isDigit_of_mem_padLeft frac
  have places : (padLeft (Nat.toDigits 10 (raw.natAbs % 100000000))).length ≤ decimals :=
    (length_padLeft (Nat.mod_lt _ (by decide))).le
  have signed : (if decide (raw < 0) = true then -(raw.natAbs : Int) else raw.natAbs) = raw := by
    split <;> rename_i sign <;> simp only [decide_eq_true_eq] at sign <;> omega
  rw [display_eq, fromStr_text digits Nat.toDigits_ne_nil places]
  simp only [assemble_eq_ok, valueOf_display]
  constructor
  · rintro ⟨_, ⟨rfl, most⟩, same⟩
    exact ⟨same.trans signed, most⟩
  · rintro ⟨same, most⟩
    exact ⟨_, ⟨rfl, most⟩, same.trans signed.symm⟩

theorem valueOf_mul_pow (places : frac.length ≤ decimals) :
    valueOf whole frac * 10 ^ frac.length = Nat.ofDigitChars 10 (whole ++ frac) 0 * scale := by
  have padded : Nat.ofDigitChars 10 (padRight frac) 0 =
      10 ^ (decimals - frac.length) * Nat.ofDigitChars 10 frac 0 := by
    rw [padRight, Nat.ofDigitChars_append, Nat.ofDigitChars_replicate_zero]
  have joined : Nat.ofDigitChars 10 (whole ++ frac) 0 =
      10 ^ frac.length * Nat.ofDigitChars 10 whole 0 + Nat.ofDigitChars 10 frac 0 := by
    rw [Nat.ofDigitChars_append, Nat.ofDigitChars_eq_ofDigitChars_zero]
  have places_pow : (10 : Int) ^ (decimals - frac.length) * 10 ^ frac.length = scale := by
    rw [← Int.pow_add, Nat.sub_add_cancel places]
    decide
  rw [valueOf, padded, joined]
  push_cast
  rw [← places_pow]
  ring

theorem denotes_of_fromStr (read : fromStr text = .ok raw) : Denotes text raw := by
  have signed := stripMinus_text text.toList
  rcases strip : stripMinus text.toList with ⟨negative, body⟩
  have parts := splitPoint_text body
  rcases split : splitPoint body with ⟨whole, frac⟩
  simp only [strip] at signed
  simp only [split] at parts
  simp only [fromStr, strip, split] at read
  split at read
  · cases read
  split at read
  · cases read
  rename_i present
  split at read
  · cases read
  rename_i digits
  split at read
  · cases read
  rename_i places
  split at read
  · cases read
  rename_i value assembled
  cases read
  obtain ⟨rfl, -⟩ := assemble_eq_ok.mp assembled
  have digitsHeld : ∀ digit ∈ whole ++ frac, digit.isDigit = true := by
    simpa [or_imp, forall_and] using digits
  have nonempty : whole ++ frac ≠ [] := by
    intro empty
    rw [append_eq_nil_iff] at empty
    exact present (by simp [empty])
  have few : frac.length ≤ decimals := by omega
  have exactly : (if negative = true then -valueOf whole frac else valueOf whole frac) *
      10 ^ frac.length = (if negative = true then -1 else 1) *
        (Nat.ofDigitChars 10 (whole ++ frac) 0 * scale) := by
    rw [← valueOf_mul_pow few]
    split <;> simp
  rcases parts with ⟨same, empty⟩ | same
  · refine ⟨negative, whole, frac, false, ?_, fun _ => empty, digitsHeld, nonempty, few, exactly⟩
    rw [← signed, same, empty]
    simp [signText]
  · refine ⟨negative, whole, frac, true, ?_, by simp, digitsHeld, nonempty, few, exactly⟩
    rw [← signed, same]
    simp [signText]

end Text

/-- Every value but the least is printed so that it reads back, and a text is read as the number
it denotes. The least value's text is not read: its digits overflow before the sign counts. -/
theorem fromStr_inverse {raw : Int} (least : minRaw ≤ raw) (most : raw ≤ maxRaw) :
    (fromStr (display raw) = .ok raw ↔ raw ≠ minRaw) ∧
      ∀ (text : String) (value : Int), fromStr text = .ok value → Denotes text value := by
  constructor
  · rw [fromStr_display]
    have bounds : minRaw = -maxRaw - 1 := by decide
    constructor
    · rintro ⟨-, away⟩ rfl
      omega
    · intro inner
      exact ⟨rfl, by omega⟩
  · intro text value read
    exact denotes_of_fromStr read

theorem fromStr_inverse_half :
    (fromStr (display (-50000000)) = .ok (-50000000) ↔ (-50000000 : Int) ≠ minRaw) ∧
      ∀ (text : String) (value : Int), fromStr text = .ok value → Denotes text value :=
  fromStr_inverse (by decide) (by decide)

theorem fromStr_display_minRaw :
    ¬ ((∀ raw, minRaw ≤ raw → raw ≤ maxRaw → fromStr (display raw) = .ok raw) ∧
      ∀ (text : String) (value : Int), fromStr text = .ok value → Denotes text value) := by
  rintro ⟨inverse, -⟩
  have read := inverse minRaw (by decide) (by decide)
  rw [fromStr_display] at read
  exact absurd read.2 (by decide)

end TorusHyperBft.FixedPoint
