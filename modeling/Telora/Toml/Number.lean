import Telora.Value.IntegerText
import Telora.Value.Value

/-!
# TOML numbers

How the text of an atom is read as an integer or a float: underscores are checked and
dropped, words and radix marks are tried first, and what has a point or an exponent is a
float.

The grammar of integers and floats over texts with underscores, and the texts that are read
as a number: those of the grammar, and integers with one sign too many.
-/

namespace Telora.Toml

open Library

def isSign (c : Char) : Bool := c = '+' || c = '-'

def trimSigns (text : List Char) : List Char := text.dropWhile isSign

def startsWith (front text : List Char) : Bool := front.isPrefixOf text

/-- The rest of a text behind its first characters. -/
def stripStart (front text : List Char) : Option (List Char) :=
  if startsWith front text then some (text.drop front.length) else none

def isDigitIn (radix : Nat) (c : Char) : Bool := (toDigit radix c).isSome

/-- Every underscore has a digit on both sides; `previous` is the character before. -/
def underscoresBetween (radix : Nat) : Option Char → List Char → Bool
  | _, [] => true
  | previous, c :: rest =>
      (c ≠ '_' || (previous.any (isDigitIn radix) && rest.head?.any (isDigitIn radix))) &&
        underscoresBetween radix (some c) rest

def validateNumericUnderscores (value : List Char) : Except String Unit :=
  let unsigned := trimSigns value
  let radix :=
    if startsWith "0x".toList unsigned then 16
    else if startsWith "0o".toList unsigned then 8
    else if startsWith "0b".toList unsigned then 2
    else 10
  if underscoresBetween radix none value then .ok ()
  else .error "TOML numeric underscores must occur between digits"

def invalidLeadingZero (value : List Char) : Bool :=
  match trimSigns value with
  | '0' :: c :: _ => c.isDigit
  | _ => false

def isExponentMark (c : Char) : Bool := c = 'e' || c = 'E'

/-- The two sides of the first character of a kind. -/
def splitOnce (mark : Char → Bool) (text : List Char) : Option (List Char × List Char) :=
  match text.dropWhile (!mark ·) with
  | [] => none
  | _ :: rest => some (text.takeWhile (!mark ·), rest)

/-- The mantissa and the exponent of an unsigned float. -/
def splitExponent (unsigned : List Char) : List Char × Option (List Char) :=
  match splitOnce isExponentMark unsigned with
  | some (mantissa, exponent) => (mantissa, some exponent)
  | none => (unsigned, none)

def digitsOnly (text : List Char) : Bool := text ≠ [] && text.all Char.isDigit

def mantissaDigits (mantissa : List Char) : Bool :=
  match splitOnce (· = '.') mantissa with
  | some (whole, fraction) => digitsOnly whole && digitsOnly fraction
  | none => digitsOnly mantissa

def validateFloatSyntax (value : List Char) : Except String Unit :=
  let unsigned := trimSigns value
  let (mantissa, exponent) := splitExponent unsigned
  if 1 < unsigned.countP isExponentMark then .error "invalid TOML Float"
  else if !mantissaDigits mantissa then .error "invalid TOML Float"
  else if exponent.any fun exponent => !digitsOnly (trimSigns exponent) then
    .error "invalid TOML Float exponent"
  else .ok ()

/-- The words for infinities and for no number. -/
def specialFloat (text : List Char) : Option F64 :=
  let name := String.ofList text
  if name = "inf" ∨ name = "+inf" then some (F64.infinite false)
  else if name = "-inf" then some (F64.infinite true)
  else if name = "nan" ∨ name = "+nan" then some F64.nan
  else if name = "-nan" then some F64.nan.neg
  else none

def radixPrefixed (text : List Char) : Bool :=
  startsWith "0x".toList text || startsWith "0o".toList text || startsWith "0b".toList text

/-- The radix of an unsigned integer and its digits. -/
def splitRadix (unsigned : List Char) : Except String (Nat × List Char) :=
  match stripStart "0x".toList unsigned, stripStart "0o".toList unsigned,
      stripStart "0b".toList unsigned with
  | some digits, _, _ => .ok (16, digits)
  | none, some digits, _ => .ok (8, digits)
  | none, none, some digits => .ok (2, digits)
  | none, none, none =>
      if 1 < unsigned.length ∧ startsWith ['0'] unsigned then
        .error "invalid leading zero in TOML integer"
      else .ok (10, unsigned)

def parseFloat (normalized : List Char) : Except String Value :=
  if invalidLeadingZero normalized then .error "invalid leading zero in TOML Float"
  else match validateFloatSyntax normalized with
    | .error message => .error message
    | .ok () => match F64.parse normalized with
      | some value => .ok (.float value)
      | none => .error "invalid TOML Float"

/-- Take a minus off. -/
def splitMinus (normalized : List Char) : Bool × List Char :=
  match stripStart ['-'] normalized with
  | some unsigned => (true, unsigned)
  | none => (false, normalized)

def boundedInt (negative : Bool) (radix : Nat) (digits : List Char) : Except String Value :=
  if digits = [] then .error "invalid TOML integer"
  else match fromStrRadix radix digits with
    | none => .error "invalid TOML integer"
    | some magnitude =>
        let signed := if negative then -magnitude else magnitude
        if -2 ^ 63 ≤ signed ∧ signed < 2 ^ 63 then .ok (.int signed)
        else .error "TOML integer is outside the i64 range"

def parseInteger (normalized : List Char) : Except String Value :=
  let (negative, unsigned) := splitMinus normalized
  let unsigned := (stripStart ['+'] unsigned).getD unsigned
  match splitRadix unsigned with
  | .error message => .error message
  | .ok (radix, digits) => boundedInt negative radix digits

def parseNumber (text : List Char) : Except String Value :=
  match validateNumericUnderscores text with
  | .error message => .error message
  | .ok () =>
      let normalized := text.filter (· ≠ '_')
      match specialFloat normalized with
      | some value => .ok (.float value)
      | none =>
          let prefixed := radixPrefixed (trimSigns normalized)
          if prefixed ∧ text.head?.any isSign then
            .error "TOML radix integers cannot have a sign"
          else if !prefixed ∧ normalized.any (· ∈ ['.', 'e', 'E']) then parseFloat normalized
          else parseInteger normalized

/-- Digits with single underscores between them. -/
inductive Grouped (radix : Nat) : List Char → Prop
  | last {c : Char} (h : digitValue c < radix) : Grouped radix [c]
  | digit {c : Char} {text : List Char} (h : digitValue c < radix) (rest : Grouped radix text) :
      Grouped radix (c :: text)
  | underscore {c : Char} {text : List Char} (h : digitValue c < radix)
      (rest : Grouped radix text) : Grouped radix (c :: '_' :: text)

/-- The text without its underscores. -/
def plain (text : List Char) : List Char := text.filter (· ≠ '_')

/-- Zero stands alone or not at the front. -/
def NoLeadingZero (text : List Char) : Prop := ∀ rest, text = '0' :: rest → rest = []

def radixMarks : List (Char × Nat) := [('x', 16), ('o', 8), ('b', 2)]

/-- The integers of the grammar, with their values. -/
inductive TomlInt : List Char → Int → Prop
  | decimal (sign : Sign) {text : List Char} (h : Grouped 10 text) (hzero : NoLeadingZero text) :
      TomlInt (sign.text ++ text) (sign.apply (numeral 10 (plain text)))
  | radix {mark : Char} {radix : Nat} (hmark : (mark, radix) ∈ radixMarks) {text : List Char}
      (h : Grouped radix text) : TomlInt ('0' :: mark :: text) (numeral radix (plain text))

/-- The exponent without its underscores. -/
def plainExponent (exponent : ExponentText) : ExponentText :=
  { exponent with digits := plain exponent.digits }

/-- The decimal without its underscores. -/
def plainDecimal (decimal : DecimalText) : DecimalText where
  sign := decimal.sign
  whole := plain decimal.whole
  fraction := decimal.fraction.map plain
  exponent := decimal.exponent.map plainExponent

/-- A decimal that the grammar admits: digits before the point and behind it, no leading
zero, and a point or an exponent. -/
structure TomlDecimal (decimal : DecimalText) : Prop where
  whole : Grouped 10 decimal.whole
  zero : NoLeadingZero decimal.whole
  fraction : ∀ fraction ∈ decimal.fraction, Grouped 10 fraction
  marker : ∀ exponent ∈ decimal.exponent, exponent.marker = 'e' ∨ exponent.marker = 'E'
  exponent : ∀ exponent ∈ decimal.exponent, Grouped 10 exponent.digits
  float : decimal.fraction ≠ none ∨ decimal.exponent ≠ none

/-- The floats of the grammar, with their values. -/
inductive TomlFloat : List Char → F64 → Prop
  | decimal {decimal : DecimalText} (h : TomlDecimal decimal) :
      TomlFloat decimal.text (plainDecimal decimal).value
  | infinity (sign : Sign) : TomlFloat (sign.text ++ "inf".toList) (F64.infinite sign.negative)
  | nan (sign : Sign) :
      TomlFloat (sign.text ++ "nan".toList) (if sign.negative then F64.nan.neg else F64.nan)

/-- What is expected of the result: a number of the grammar with its value when an integer
fits into 64 bits, and an error for everything else. -/
inductive ByGrammar (text : List Char) : Except String Value → Prop
  | int {value : Int} (h : TomlInt text value) (hrange : -2 ^ 63 ≤ value ∧ value < 2 ^ 63) :
      ByGrammar text (.ok (.int value))
  | float {value : F64} (h : TomlFloat text value) : ByGrammar text (.ok (.float value))
  | rejected {message : String}
      (hint : ∀ value, TomlInt text value → ¬(-2 ^ 63 ≤ value ∧ value < 2 ^ 63))
      (hfloat : ∀ value, ¬ TomlFloat text value) : ByGrammar text (.error message)

/-- The runs of signs that are read before a decimal integer although there are too many,
and whether they make it negative. -/
def doubledSigns : List (List Char × Bool) :=
  [(['-', '+'], true), (['-', '-'], false), (['+', '+'], false), (['+', '-'], true),
    (['-', '+', '-'], false), (['-', '+', '+'], true)]

/-- An integer that fits but has a sign too many: a run of signs, or one behind a radix
mark. Behind two or three signs of which the last is read with the digits, leading zeros
are not seen either. -/
inductive ExtraSign : List Char → Int → Prop
  | decimal {signs : List Char} {negative : Bool} (hsigns : (signs, negative) ∈ doubledSigns)
      {text : List Char} (h : Grouped 10 text) (hzero : signs = ['-', '+'] → NoLeadingZero text) :
      ExtraSign (signs ++ text)
        (if negative then -(numeral 10 (plain text) : Int) else numeral 10 (plain text))
  | radix {mark : Char} {radix : Nat} (hmark : (mark, radix) ∈ radixMarks) {negative : Bool}
      {text : List Char} (h : Grouped radix text) :
      ExtraSign ('0' :: mark :: (Sign.text (some negative) ++ text))
        (Sign.apply (some negative) (numeral radix (plain text)))

section Underscores

variable {radix : Nat}

theorem isDigitIn_iff (hradix : radix ≤ 16) (c : Char) :
    isDigitIn radix c = true ↔ digitValue c < radix := by
  rw [isDigitIn, toDigit_eq hradix]
  split <;> simp [*]

theorem ne_underscore {c : Char} (hradix : radix ≤ 16) (h : digitValue c < radix) : c ≠ '_' := by
  rintro rfl
  exact absurd (Nat.lt_of_lt_of_le h hradix) (by decide)

theorem plain_cons {c : Char} (h : c ≠ '_') (text : List Char) :
    plain (c :: text) = c :: plain text :=
  List.filter_cons_of_pos (decide_eq_true h)

theorem plain_underscore (text : List Char) : plain ('_' :: text) = plain text := rfl

theorem plain_append (text rest : List Char) : plain (text ++ rest) = plain text ++ plain rest :=
  List.filter_append text rest

theorem underscoresBetween_cons {c : Char} (h : c ≠ '_') (previous : Option Char)
    (text : List Char) :
    underscoresBetween radix previous (c :: text) = underscoresBetween radix (some c) text := by
  rw [underscoresBetween, decide_eq_true h, Bool.true_or, Bool.true_and]

theorem underscoresBetween_underscore (previous : Option Char) (text : List Char) :
    underscoresBetween radix previous ('_' :: text) = true ↔
      previous.any (isDigitIn radix) = true ∧ text.head?.any (isDigitIn radix) = true ∧
        underscoresBetween radix (some '_') text = true := by
  rw [underscoresBetween]
  simp [and_assoc]

/-- A text that may start anywhere may follow any character. -/
theorem underscoresBetween_of_none {text : List Char}
    (h : underscoresBetween radix none text = true) (previous : Option Char) :
    underscoresBetween radix previous text = true := by
  cases text with
  | nil => rfl
  | cons c text =>
      by_cases hc : c = '_'
      · subst hc
        rw [underscoresBetween_underscore] at h
        exact absurd h.1 Bool.false_ne_true
      · rw [underscoresBetween_cons hc] at h ⊢
        exact h

theorem underscoresBetween_of_not_digit {previous : Char}
    (hprevious : isDigitIn radix previous = false) {text : List Char}
    (h : underscoresBetween radix (some previous) text = true) :
    underscoresBetween radix none text = true := by
  cases text with
  | nil => rfl
  | cons c text =>
      by_cases hc : c = '_'
      · subst hc
        rw [underscoresBetween_underscore, Option.any_some, hprevious] at h
        exact absurd h.1 Bool.false_ne_true
      · rw [underscoresBetween_cons hc] at h ⊢
        exact h

/-- The first character of a text is the first one without underscores. -/
theorem exists_cons_of_plain {c : Char} {text rest : List Char}
    (h : underscoresBetween radix none text = true) (hplain : plain text = c :: rest) :
    ∃ text', text = c :: text' ∧ plain text' = rest ∧
      underscoresBetween radix (some c) text' = true := by
  cases text with
  | nil => cases hplain
  | cons d text =>
      by_cases hd : d = '_'
      · subst hd
        rw [underscoresBetween_underscore] at h
        exact absurd h.1 Bool.false_ne_true
      · rw [plain_cons hd, List.cons.injEq] at hplain
        obtain ⟨rfl, hrest⟩ := hplain
        rw [underscoresBetween_cons hd] at h
        exact ⟨text, rfl, hrest, h⟩

theorem eq_nil_of_plain {text : List Char} (h : underscoresBetween radix none text = true)
    (hplain : plain text = []) : text = [] := by
  cases text with
  | nil => rfl
  | cons d text =>
      by_cases hd : d = '_'
      · subst hd
        rw [underscoresBetween_underscore] at h
        exact absurd h.1 Bool.false_ne_true
      · rw [plain_cons hd] at hplain
        cases hplain

/-- Digits at the front are a group, with a text behind it that may start anywhere. -/
theorem exists_group_of_plain (hradix : radix ≤ 16) {digits : List Char}
    (hdigits : Digits radix digits) {text rest : List Char}
    (h : underscoresBetween radix none text = true) (hplain : plain text = digits ++ rest)
    (hrest : ∀ c ∈ rest.head?, isDigitIn radix c = false) :
    ∃ group text', text = group ++ text' ∧ Grouped radix group ∧ plain group = digits ∧
      plain text' = rest ∧ underscoresBetween radix none text' = true := by
  induction digits generalizing text with
  | nil => exact absurd rfl hdigits.ne_nil
  | cons c digits ih =>
      have hc := hdigits.digit c List.mem_cons_self
      have hplainc : plain [c] = [c] := plain_cons (ne_underscore hradix hc) []
      obtain ⟨text, rfl, hplain, h⟩ := exists_cons_of_plain h hplain
      by_cases hnil : digits = []
      · subst hnil
        refine ⟨[c], text, rfl, .last hc, hplainc, hplain, ?_⟩
        cases text with
        | nil => rfl
        | cons d text =>
            by_cases hd : d = '_'
            · -- an underscore has a digit behind it
              subst hd
              obtain ⟨-, hnext, -⟩ := (underscoresBetween_underscore _ _).mp h
              cases text with
              | nil => cases hnext
              | cons e text =>
                  rw [List.head?_cons, Option.any_some] at hnext
                  have he := ne_underscore hradix ((isDigitIn_iff hradix e).mp hnext)
                  rw [plain_underscore, plain_cons he] at hplain
                  change e :: plain text = rest at hplain
                  rw [hrest e (by rw [← hplain]; rfl)] at hnext
                  cases hnext
            · rw [underscoresBetween_cons hd] at h ⊢
              exact h
      · have hmore : Digits radix digits :=
          ⟨hnil, fun d hmem => hdigits.digit d (List.mem_cons_of_mem _ hmem)⟩
        cases text with
        | nil =>
            rw [show plain [] = [] from rfl] at hplain
            exact absurd (List.append_eq_nil_iff.mp hplain.symm).1 hnil
        | cons d text =>
            by_cases hd : d = '_'
            · subst hd
              obtain ⟨-, hnext, hbetween⟩ := (underscoresBetween_underscore _ _).mp h
              have hstart : underscoresBetween radix none text = true := by
                cases text with
                | nil => rfl
                | cons e text =>
                    rw [List.head?_cons, Option.any_some] at hnext
                    have he := ne_underscore hradix ((isDigitIn_iff hradix e).mp hnext)
                    rw [underscoresBetween_cons he] at hbetween ⊢
                    exact hbetween
              rw [plain_underscore] at hplain
              obtain ⟨group, text', rfl, hgroup, hdigitsGroup, hplain', hbetween'⟩ :=
                ih hmore hstart hplain
              refine ⟨c :: '_' :: group, text', rfl, .underscore hc hgroup, ?_, hplain', hbetween'⟩
              rw [plain_cons (ne_underscore hradix hc), plain_underscore, hdigitsGroup]
            · have hstart : underscoresBetween radix none (d :: text) = true := by
                rw [underscoresBetween_cons hd] at h ⊢
                exact h
              obtain ⟨group, text', htext, hgroup, hdigitsGroup, hplain', hbetween'⟩ :=
                ih hmore hstart hplain
              refine ⟨c :: group, text', by rw [htext, List.cons_append], .digit hc hgroup, ?_,
                hplain', hbetween'⟩
              rw [plain_cons (ne_underscore hradix hc), hdigitsGroup]

end Underscores

section Grouped

variable {radix : Nat} {text : List Char}

theorem Grouped.head (h : Grouped radix text) :
    ∃ c rest, text = c :: rest ∧ digitValue c < radix := by
  cases h with
  | last hc => exact ⟨_, _, rfl, hc⟩
  | digit hc _ => exact ⟨_, _, rfl, hc⟩
  | underscore hc _ => exact ⟨_, _, rfl, hc⟩

theorem Grouped.digits_plain (h : Grouped radix text) (hradix : radix ≤ 16) :
    Digits radix (plain text) := by
  induction h with
  | last hc =>
      rw [plain_cons (ne_underscore hradix hc)]
      exact ⟨List.cons_ne_nil _ _, fun d hmem => by
        rcases List.mem_cons.mp hmem with rfl | hmem
        · exact hc
        · cases hmem⟩
  | digit hc _ ih =>
      rw [plain_cons (ne_underscore hradix hc)]
      refine ⟨List.cons_ne_nil _ _, fun d hmem => ?_⟩
      rcases List.mem_cons.mp hmem with rfl | hmem
      · exact hc
      · exact ih.digit d hmem
  | underscore hc _ ih =>
      rw [plain_cons (ne_underscore hradix hc), plain_underscore]
      refine ⟨List.cons_ne_nil _ _, fun d hmem => ?_⟩
      rcases List.mem_cons.mp hmem with rfl | hmem
      · exact hc
      · exact ih.digit d hmem

/-- A group may stand anywhere. -/
theorem Grouped.underscoresBetween (h : Grouped radix text) (hradix : radix ≤ 16)
    {rest : List Char} (hrest : underscoresBetween radix none rest = true)
    (previous : Option Char) :
    Toml.underscoresBetween radix previous (text ++ rest) = true := by
  induction h generalizing previous with
  | last hc =>
      rw [List.singleton_append, underscoresBetween_cons (ne_underscore hradix hc)]
      exact underscoresBetween_of_none hrest _
  | digit hc _ ih =>
      rw [List.cons_append, underscoresBetween_cons (ne_underscore hradix hc)]
      exact ih _
  | underscore hc hgroup ih =>
      rw [List.cons_append, underscoresBetween_cons (ne_underscore hradix hc), List.cons_append,
        underscoresBetween_underscore]
      obtain ⟨d, more, hd, hdigit⟩ := hgroup.head
      refine ⟨(isDigitIn_iff hradix _).mpr hc, ?_, ih _⟩
      rw [hd]
      exact (isDigitIn_iff hradix d).mpr hdigit

theorem NoLeadingZero.plain (h : Grouped radix text) (hradix : radix ≤ 16) :
    NoLeadingZero (plain text) ↔ NoLeadingZero text := by
  cases h with
  | last hc => rw [plain_cons (ne_underscore hradix hc)]; exact Iff.rfl
  | digit hc hrest =>
      obtain ⟨d, more, rfl, hd⟩ := hrest.head
      rw [plain_cons (ne_underscore hradix hc), plain_cons (ne_underscore hradix hd)]
      constructor <;>
        (intro h rest hrest
         have := h _ (by rw [(List.cons.inj hrest).1])
         cases this)
  | underscore hc hrest =>
      obtain ⟨d, more, rfl, hd⟩ := hrest.head
      rw [plain_cons (ne_underscore hradix hc), plain_underscore,
        plain_cons (ne_underscore hradix hd)]
      constructor <;>
        (intro h rest hrest
         have := h _ (by rw [(List.cons.inj hrest).1])
         cases this)

end Grouped

end Telora.Toml
