import Telora.Library.ExceptBind
import Telora.Toml.Temporal
import Mathlib.Tactic.IntervalCases

/-!
# Dates and times as the grammar has them

The texts of dates, times and offsets with what they denote, and that the temporal reader
accepts exactly these, stores a text with the same meaning and never cuts a character.
-/

namespace Telora.Toml

open Library

/-- A number written with a fixed number of digits. -/
structure Padded (width : Nat) (text : List Char) (number : Nat) : Prop where
  length : text.length = width
  isDigit : ∀ c ∈ text, c.isDigit = true
  value : numeral 10 text = number

inductive DateText : List Char → Date → Prop
  | mk {date : Date} {year month day : List Char} (hyear : Padded 4 year date.year)
      (hmonth : Padded 2 month date.month) (hday : Padded 2 day date.day) :
      DateText (year ++ '-' :: (month ++ '-' :: day)) date

inductive FractionText : List Char → List Nat → Prop
  | none : FractionText [] []
  | digits {digits : List Char} (hne : digits ≠ []) (h : ∀ c ∈ digits, c.isDigit = true) :
      FractionText ('.' :: digits) (digits.map digitValue)

inductive TimeText : List Char → TimeOfDay → Prop
  | mk {time : TimeOfDay} {hour minute second fraction : List Char}
      (hhour : Padded 2 hour time.hour) (hminute : Padded 2 minute time.minute)
      (hsecond : Padded 2 second time.second) (hfraction : FractionText fraction time.fraction) :
      TimeText (hour ++ ':' :: (minute ++ ':' :: (second ++ fraction))) time

/-- The offset that a sign, hours and minutes make. -/
def signedMinutes (sign : Char) (hour minute : Nat) : Int :=
  if sign = '-' then -(60 * hour + minute : Nat) else (60 * hour + minute : Nat)

inductive OffsetText : List Char → Offset → Prop
  | zulu {c : Char} (h : isZulu c = true) : OffsetText [c] Offset.utc
  | fixed {offset : Offset} {sign : Char} {hour minute : List Char} {hours minutes : Nat}
      (hsign : isOffsetSign sign = true) (hhour : Padded 2 hour hours) (hhours : hours < 24)
      (hminute : Padded 2 minute minutes) (hminutes : minutes < 60)
      (hoffset : offset.minutes = signedMinutes sign hours minutes) :
      OffsetText (sign :: (hour ++ ':' :: minute)) offset

/-- The dates, times and date-times of the grammar with what they denote. -/
inductive Denotes : List Char → Temporal → Prop
  | localDate {text : List Char} {date : Date} (h : DateText text date) :
      Denotes text (.localDate date)
  | localTime {text : List Char} {time : TimeOfDay} (h : TimeText text time) :
      Denotes text (.localTime time)
  | localDateTime {text text' : List Char} {separator : Char} {date : Date} {time : TimeOfDay}
      (hdate : DateText text date) (hseparator : separator ∈ ['T', 't', ' '])
      (htime : TimeText text' time) :
      Denotes (text ++ separator :: text') (.localDateTime date time)
  | offsetDateTime {text text' text'' : List Char} {separator : Char} {date : Date}
      {time : TimeOfDay} {offset : Offset} (hdate : DateText text date)
      (hseparator : separator ∈ ['T', 't', ' ']) (htime : TimeText text' time)
      (hoffset : OffsetText text'' offset) :
      Denotes (text ++ separator :: (text' ++ text'')) (.offsetDateTime date time offset)

/-- The tag under which a value of a kind is stored. -/
def temporalTag : Temporal → TemporalTag
  | .localDate _ => .localDate
  | .localTime _ => .localTime
  | .localDateTime _ _ => .localDateTime
  | .offsetDateTime _ _ _ => .offsetDateTime

section Characters

theorem ascii_of_isDigit {c : Char} (h : c.isDigit = true) : c.toNat < 128 := by
  have := (isDigit_iff c).mp h
  omega

theorem ascii_of_isAtomChar {c : Char} (h : isAtomChar c = true) : c.toNat < 128 := by
  rw [isAtomChar, Bool.or_eq_true, decide_eq_true_iff] at h
  rcases h with h | h
  · delta Char.isAlphanum Char.isAlpha Char.isUpper Char.isLower Char.isDigit at h
    simp only [Bool.or_eq_true, Bool.and_eq_true, decide_eq_true_eq, UInt32.le_iff_toNat_le,
      ge_iff_le] at h
    have : c.toNat = c.val.toNat := rfl
    have : 'Z'.val.toNat = 90 := rfl
    have : 'z'.val.toNat = 122 := rfl
    have : '9'.val.toNat = 57 := rfl
    omega
  · simp only [List.mem_cons, List.not_mem_nil, or_false] at h
    rcases h with rfl | rfl | rfl | rfl <;> decide

theorem AtomToken.ascii {text : List Char} (h : AtomToken text) : Ascii text := by
  induction h with
  | part _ h => exact fun c hmem => ascii_of_isAtomChar (h c hmem)
  | dotted _ h _ ih =>
      intro c hmem
      rcases List.mem_append.mp hmem with hmem | hmem
      · exact ascii_of_isAtomChar (h c hmem)
      · rcases List.mem_cons.mp hmem with rfl | hmem
        · decide
        · exact ih c hmem

/-- An atom has characters of one byte only. -/
theorem Atom.ascii {text : List Char} (h : Atom text) : Ascii text := by
  cases h with
  | token h => exact h.ascii
  | merged hdate htime =>
      intro c hmem
      rcases List.mem_append.mp hmem with hmem | hmem
      · exact hdate.ascii c hmem
      · rcases List.mem_cons.mp hmem with rfl | hmem
        · decide
        · exact htime.ascii c hmem

variable {text front middle rest : List Char} {c : Char} {start stop offset : Nat}

theorem slice_eq (h : Ascii text) (htext : text = front ++ (middle ++ rest))
    (hstart : front.length = start) (hstop : start + middle.length = stop) :
    slice start stop text = .ok middle := by
  subst htext hstart hstop
  obtain ⟨hfront, hback⟩ := h.of_append
  rw [slice, hfront.sliceBytes_append hback.of_append.1]

theorem cut_eq (h : Ascii text) (htext : text = front ++ rest) (hoffset : front.length = offset) :
    cut offset text = .ok (front, rest) := by
  subst htext hoffset
  rw [cut, h.of_append.1.splitAtByte_append]

theorem charAtByte_eq (h : Ascii text) (htext : text = front ++ c :: rest)
    (hoffset : front.length = offset) : charAtByte offset text = some c := by
  subst htext hoffset
  exact h.of_append.1.charAtByte_append

theorem byteAt_eq (h : Ascii text) (htext : text = front ++ c :: rest)
    (hoffset : front.length = offset) : byteAt offset text = .ok (some c) := by
  have hlength : offset < byteLength text := by
    rw [h.byteLength, htext, List.length_append, List.length_cons, hoffset]
    omega
  rw [byteAt, if_pos hlength, charAtByte_eq h htext hoffset]

/-- A long text has three fields of fixed widths, with characters between them. -/
theorem exists_fields (text : List Char) (first second third : Nat)
    (h : first + second + third + 2 ≤ text.length) :
    ∃ a c b d e rest, text = a ++ c :: (b ++ d :: (e ++ rest)) ∧
      a.length = first ∧ b.length = second ∧ e.length = third := by
  have hsplit : ∀ (n : Nat) (text : List Char), n ≤ text.length →
      ∃ front rest, text = front ++ rest ∧ front.length = n ∧ rest.length = text.length - n :=
    fun n text hn => ⟨text.take n, text.drop n, (List.take_append_drop n text).symm,
      List.length_take_of_le hn, List.length_drop⟩
  have hcons : ∀ text : List Char, 1 ≤ text.length → ∃ c rest, text = c :: rest ∧
      rest.length = text.length - 1 := by
    intro text hn
    cases text with
    | nil => cases hn
    | cons c rest => exact ⟨c, rest, rfl, rfl⟩
  obtain ⟨a, rest, rfl, ha, hrest⟩ := hsplit first text (by omega)
  obtain ⟨c, rest, rfl, hrest'⟩ := hcons rest (by omega)
  obtain ⟨b, rest, rfl, hb, hrest''⟩ := hsplit second rest (by omega)
  obtain ⟨d, rest, rfl, hrest'''⟩ := hcons rest (by omega)
  obtain ⟨e, rest, rfl, he, -⟩ := hsplit third rest (by omega)
  exact ⟨a, c, b, d, e, rest, rfl, ha, hb, he⟩

end Characters

section Decimals

theorem numeral_lt {text : List Char} (h : ∀ c ∈ text, c.isDigit = true) :
    numeral 10 text < 10 ^ text.length :=
  numeral_lt_pow fun c hmem => digitValue_of_isDigit (h c hmem)

/-- Up to four digits are read as their number. -/
theorem decimal_padded {width number : Nat} {text : List Char} (h : Padded width text number)
    (hpos : 0 < width) (hwidth : width ≤ 4) : decimal text = .ok number := by
  have hall : text.all Char.isDigit = true := List.all_eq_true.mpr h.isDigit
  have hne : text ≠ [] := by
    rintro rfl
    exact absurd h.length (Nat.ne_of_lt hpos)
  have hlt := numeral_lt h.isDigit
  have hpow : 10 ^ text.length ≤ 10 ^ 4 := Nat.pow_le_pow_right (by decide) (h.length ▸ hwidth)
  rw [decimal, hall, if_neg (by decide), if_neg (by
    rintro (hnil | hlarge)
    · exact hne hnil
    · omega), h.value]

theorem decimal_ok {number : Nat} {text : List Char} (h : decimal text = .ok number) :
    Padded text.length text number := by
  rw [decimal] at h
  split at h
  · cases h
  · next hall =>
      split at h
      · cases h
      · cases h
        exact ⟨rfl, List.all_eq_true.mp (by simpa using hall), rfl⟩

theorem decimal_ne_panic (text : List Char) : decimal text ≠ .error .panic := by
  rw [decimal]
  split
  · exact fun h => by cases h
  · split <;> exact fun h => by cases h

/-- No panic comes out of a step behind one without. -/
theorem bind_ne_panic {α β : Type} {x : Except Failure α} {f : α → Except Failure β}
    (hx : x ≠ .error .panic) (hf : ∀ a, x = .ok a → f a ≠ .error .panic) :
    (x >>= f) ≠ .error .panic := by
  cases x with
  | error failure =>
      intro h
      cases h
      exact hx rfl
  | ok a => exact hf a rfl

end Decimals

section Dates

theorem leap_iff (year : Nat) :
    (year % 4 = 0 ∧ (year % 100 ≠ 0 ∨ year % 400 = 0)) ↔ Leap year := by
  rw [Leap, Nat.dvd_iff_mod_eq_zero, Nat.dvd_iff_mod_eq_zero, Nat.dvd_iff_mod_eq_zero]
  exact and_congr_right fun _ => by rw [imp_iff_not_or]

theorem daysOfMonth_ok_iff {year month days : Nat} :
    daysOfMonth year month = .ok days ↔ (1 ≤ month ∧ month ≤ 12) ∧ days = daysIn year month := by
  rw [daysOfMonth, daysIn]
  simp only [leap_iff]
  by_cases hmonth : 1 ≤ month ∧ month ≤ 12
  · obtain ⟨hlow, hhigh⟩ := hmonth
    interval_cases month <;> by_cases hleap : Leap year <;> simp [hleap, eq_comm]
  · have hlong : month ∉ [1, 3, 5, 7, 8, 10, 12] := by
      simp only [List.mem_cons, List.not_mem_nil, or_false]
      omega
    have hshort : month ∉ [4, 6, 9, 11] := by
      simp only [List.mem_cons, List.not_mem_nil, or_false]
      omega
    have htwo : month ≠ 2 := by omega
    rw [if_neg hlong, if_neg hshort, if_neg fun h => htwo h.1, if_neg htwo]
    exact iff_of_false (fun h => by cases h) fun h => hmonth h.1

theorem daysOfMonth_ne_panic (year month : Nat) : daysOfMonth year month ≠ .error .panic := by
  rw [daysOfMonth]
  repeat' split
  all_goals exact fun h => by cases h

variable {year month day : List Char} {c d : Char}

theorem validateDate_fields (h : Ascii (year ++ c :: (month ++ d :: day)))
    (hyear : year.length = 4) (hmonth : month.length = 2) (hday : day.length = 2) :
    validateDate (year ++ c :: (month ++ d :: day)) = (do
      let year ← decimal year
      let month ← decimal month
      let day ← decimal day
      let days ← daysOfMonth year month
      if day = 0 ∨ days < day then .error (.message "invalid TOML day") else .ok ()) := by
  have hlength : byteLength (year ++ c :: (month ++ d :: day)) = 10 := by
    rw [h.byteLength]
    simp [hyear, hmonth, hday]
  have hyearSlice := @slice_eq _ [] year (c :: (month ++ d :: day)) 0 4 h rfl rfl (by rw [hyear])
  have hmonthSlice := @slice_eq _ (year ++ [c]) month (d :: day) 5 7 h (by simp)
    (by simp [hyear]) (by rw [hmonth])
  have hdaySlice := @slice_eq _ (year ++ c :: (month ++ [d])) day [] 8 10 h (by simp)
    (by simp [hyear, hmonth]) (by rw [hday])
  rw [validateDate, if_neg (not_not.mpr hlength), hyearSlice, hmonthSlice, hdaySlice]
  rfl

/-- A date that is accepted is one of the calendar. -/
theorem date_of_validateDate (h : Ascii (year ++ '-' :: (month ++ '-' :: day)))
    (hyear : year.length = 4) (hmonth : month.length = 2) (hday : day.length = 2)
    (hvalid : validateDate (year ++ '-' :: (month ++ '-' :: day)) = .ok ()) :
    ∃ date, DateText (year ++ '-' :: (month ++ '-' :: day)) date := by
  rw [validateDate_fields h hyear hmonth hday] at hvalid
  obtain ⟨y, hy, hvalid⟩ := bind_eq_ok.mp hvalid
  obtain ⟨m, hm, hvalid⟩ := bind_eq_ok.mp hvalid
  obtain ⟨n, hn, hvalid⟩ := bind_eq_ok.mp hvalid
  obtain ⟨days, hdays, hvalid⟩ := bind_eq_ok.mp hvalid
  obtain ⟨hrange, rfl⟩ := daysOfMonth_ok_iff.mp hdays
  obtain ⟨hbounds, -⟩ := ite_error_eq_ok.mp hvalid
  rw [not_or, Nat.not_lt] at hbounds
  have hyearText := decimal_ok hy
  have hmonthText := decimal_ok hm
  have hdayText := decimal_ok hn
  rw [hyear] at hyearText
  rw [hmonth] at hmonthText
  rw [hday] at hdayText
  exact ⟨⟨y, m, n, hrange, Nat.pos_of_ne_zero hbounds.1, hbounds.2⟩,
    .mk hyearText hmonthText hdayText⟩

theorem Padded.ascii {width number : Nat} {text : List Char} (h : Padded width text number) :
    Ascii text :=
  fun c hmem => ascii_of_isDigit (h.isDigit c hmem)

theorem ascii_append {text rest : List Char} (h : Ascii text) (h' : Ascii rest) :
    Ascii (text ++ rest) :=
  fun c hmem => (List.mem_append.mp hmem).elim (h c) (h' c)

theorem ascii_cons {c : Char} {text : List Char} (hc : c.toNat < 128) (h : Ascii text) :
    Ascii (c :: text) :=
  fun d hmem => (List.mem_cons.mp hmem).elim (fun hd => hd ▸ hc) (h d)

theorem DateText.ascii {text : List Char} {date : Date} (h : DateText text date) : Ascii text := by
  cases h with
  | mk hyear hmonth hday =>
      exact ascii_append hyear.ascii (ascii_cons (by decide)
        (ascii_append hmonth.ascii (ascii_cons (by decide) hday.ascii)))

theorem DateText.length {text : List Char} {date : Date} (h : DateText text date) :
    text.length = 10 := by
  cases h with
  | mk hyear hmonth hday => simp [hyear.length, hmonth.length, hday.length]

/-- Every date of the calendar is accepted. -/
theorem DateText.validateDate {text : List Char} {date : Date} (h : DateText text date) :
    validateDate text = .ok () := by
  have hascii := h.ascii
  cases h with
  | mk hyear hmonth hday =>
      have hdays : daysOfMonth date.year date.month = .ok (daysIn date.year date.month) :=
        daysOfMonth_ok_iff.mpr ⟨date.month_mem, rfl⟩
      have hbounds : ¬(date.day = 0 ∨ daysIn date.year date.month < date.day) := by
        have := date.day_mem
        omega
      rw [validateDate_fields hascii hyear.length hmonth.length hday.length,
        decimal_padded hyear (by decide) (by decide), decimal_padded hmonth (by decide) (by decide),
        decimal_padded hday (by decide) (by decide)]
      change (do
        let days ← daysOfMonth date.year date.month
        if date.day = 0 ∨ days < date.day then _ else _) = _
      rw [hdays]
      exact if_neg hbounds

theorem validateDate_ne_panic (h : Ascii (year ++ c :: (month ++ d :: day)))
    (hyear : year.length = 4) (hmonth : month.length = 2) (hday : day.length = 2) :
    validateDate (year ++ c :: (month ++ d :: day)) ≠ .error .panic := by
  rw [validateDate_fields h hyear hmonth hday]
  refine bind_ne_panic (decimal_ne_panic _) fun _ _ => ?_
  refine bind_ne_panic (decimal_ne_panic _) fun _ _ => ?_
  refine bind_ne_panic (decimal_ne_panic _) fun _ _ => ?_
  refine bind_ne_panic (daysOfMonth_ne_panic _ _) fun _ _ => ?_
  split <;> exact fun h => by cases h

end Dates

section Times

theorem validFraction_iff {text : List Char} :
    validFraction text = true ↔ ∃ fraction, FractionText text fraction := by
  constructor
  · intro h
    cases text with
    | nil => exact ⟨[], .none⟩
    | cons c digits =>
        rw [validFraction, Bool.and_eq_true, Bool.and_eq_true, decide_eq_true_iff,
          decide_eq_true_iff, List.all_eq_true] at h
        obtain ⟨⟨rfl, hne⟩, hdigits⟩ := h
        exact ⟨_, .digits hne hdigits⟩
  · rintro ⟨fraction, h⟩
    cases h with
    | none => rfl
    | digits hne hdigits =>
        rw [validFraction, Bool.and_eq_true, Bool.and_eq_true, List.all_eq_true]
        exact ⟨⟨rfl, decide_eq_true hne⟩, hdigits⟩

theorem FractionText.digit_lt {text : List Char} {fraction : List Nat}
    (h : FractionText text fraction) : ∀ digit ∈ fraction, digit < 10 := by
  cases h with
  | none => exact fun digit hmem => absurd hmem List.not_mem_nil
  | digits hne hdigits =>
      intro digit hmem
      obtain ⟨c, hc, rfl⟩ := List.mem_map.mp hmem
      exact digitValue_of_isDigit (hdigits c hc)

/-- A fraction has points and digits only. -/
theorem FractionText.char {text : List Char} {fraction : List Nat}
    (h : FractionText text fraction) : ∀ c ∈ text, c = '.' ∨ c.isDigit = true := by
  cases h with
  | none => exact fun c hmem => absurd hmem List.not_mem_nil
  | digits hne hdigits =>
      intro c hmem
      rcases List.mem_cons.mp hmem with rfl | hmem
      · exact .inl rfl
      · exact .inr (hdigits c hmem)

/-- The shape of a text that passes the first test of a time. -/
theorem time_fields {text : List Char} (h : Ascii text) :
    (byteLength text < 8 ∨ charAtByte 2 text ≠ some ':' ∨ charAtByte 5 text ≠ some ':') ∨
      ∃ hour minute second fraction, text = hour ++ ':' :: (minute ++ ':' :: (second ++ fraction)) ∧
        hour.length = 2 ∧ minute.length = 2 ∧ second.length = 2 := by
  by_cases hlength : byteLength text < 8
  · exact .inl (.inl hlength)
  · rw [h.byteLength] at hlength
    obtain ⟨hour, c, minute, d, second, fraction, rfl, hhour, hminute, hsecond⟩ :=
      exists_fields text 2 2 2 (by omega)
    have hfirst := charAtByte_eq h rfl hhour
    have hsecondChar := @charAtByte_eq _ (hour ++ c :: minute) (second ++ fraction) d 5 h
      (by simp) (by simp [hhour, hminute])
    by_cases hc : c = ':'
    · by_cases hd : d = ':'
      · subst hc hd
        exact .inr ⟨hour, minute, second, fraction, rfl, hhour, hminute, hsecond⟩
      · refine .inl (.inr (.inr ?_))
        rw [hsecondChar]
        exact fun h => hd (Option.some.inj h)
    · refine .inl (.inr (.inl ?_))
      rw [hfirst]
      exact fun h => hc (Option.some.inj h)

variable {hour minute second fraction : List Char}

theorem parseTime_fields (h : Ascii (hour ++ ':' :: (minute ++ ':' :: (second ++ fraction))))
    (hhour : hour.length = 2) (hminute : minute.length = 2) (hsecond : second.length = 2) :
    parseTime (hour ++ ':' :: (minute ++ ':' :: (second ++ fraction))) = (do
      let h ← decimal hour
      let m ← decimal minute
      let s ← decimal second
      if 23 < h ∨ 59 < m ∨ 59 < s then
        .error (.message "TOML time component is outside its valid range")
      else if validFraction fraction then
        .ok (hour ++ ':' :: (minute ++ ':' :: (second ++ fraction)))
      else .error (.message "invalid TOML fractional second")) := by
  have hform : ¬(byteLength (hour ++ ':' :: (minute ++ ':' :: (second ++ fraction))) < 8 ∨
      charAtByte 2 (hour ++ ':' :: (minute ++ ':' :: (second ++ fraction))) ≠ some ':' ∨
      charAtByte 5 (hour ++ ':' :: (minute ++ ':' :: (second ++ fraction))) ≠ some ':') := by
    rw [not_or, not_or, not_not, not_not, h.byteLength]
    refine ⟨?_, charAtByte_eq h rfl hhour, ?_⟩
    · simp only [List.length_append, List.length_cons]
      omega
    · exact @charAtByte_eq _ (hour ++ ':' :: minute) (second ++ fraction) ':' 5 h (by simp)
        (by simp [hhour, hminute])
  have hhourSlice := @slice_eq _ [] hour (':' :: (minute ++ ':' :: (second ++ fraction))) 0 2 h
    rfl rfl (by rw [hhour])
  have hminuteSlice := @slice_eq _ (hour ++ [':']) minute (':' :: (second ++ fraction)) 3 5 h
    (by simp) (by simp [hhour]) (by rw [hminute])
  have hsecondSlice := @slice_eq _ (hour ++ ':' :: (minute ++ [':'])) second fraction 6 8 h
    (by simp) (by simp [hhour, hminute]) (by rw [hsecond])
  have hcut := @cut_eq _ (hour ++ ':' :: (minute ++ ':' :: second)) fraction 8 h
    (by simp) (by simp [hhour, hminute, hsecond])
  rw [parseTime, if_neg hform, hhourSlice, hminuteSlice, hsecondSlice, hcut]
  rfl

/-- What is read as a time is one, and is stored as it is. -/
theorem time_of_parseTime {text stored : List Char} (h : Ascii text)
    (hparse : parseTime text = .ok stored) : stored = text ∧ ∃ time, TimeText text time := by
  rcases time_fields h with hbad | ⟨hour, minute, second, fraction, rfl, hhour, hminute, hsecond⟩
  · rw [parseTime, if_pos hbad] at hparse
    cases hparse
  · rw [parseTime_fields h hhour hminute hsecond] at hparse
    obtain ⟨hours, hh, hparse⟩ := bind_eq_ok.mp hparse
    obtain ⟨minutes, hm, hparse⟩ := bind_eq_ok.mp hparse
    obtain ⟨seconds, hs, hparse⟩ := bind_eq_ok.mp hparse
    obtain ⟨hrange, hparse⟩ := ite_error_eq_ok.mp hparse
    split at hparse
    · next hfraction =>
        cases hparse
        obtain ⟨digits, hdigits⟩ := validFraction_iff.mp hfraction
        have hhourText := decimal_ok hh
        have hminuteText := decimal_ok hm
        have hsecondText := decimal_ok hs
        rw [hhour] at hhourText
        rw [hminute] at hminuteText
        rw [hsecond] at hsecondText
        exact ⟨rfl, ⟨hours, minutes, seconds, digits, by omega, by omega, by omega,
          hdigits.digit_lt⟩, .mk hhourText hminuteText hsecondText hdigits⟩
    · cases hparse

theorem FractionText.ascii {text : List Char} {fraction : List Nat}
    (h : FractionText text fraction) : Ascii text := by
  intro c hmem
  rcases h.char c hmem with rfl | hc
  · decide
  · exact ascii_of_isDigit hc

theorem TimeText.ascii {text : List Char} {time : TimeOfDay} (h : TimeText text time) :
    Ascii text := by
  cases h with
  | mk hhour hminute hsecond hfraction =>
      exact ascii_append hhour.ascii (ascii_cons (by decide) (ascii_append hminute.ascii
        (ascii_cons (by decide) (ascii_append hsecond.ascii hfraction.ascii))))

/-- Every time of day is accepted. -/
theorem TimeText.parseTime {text : List Char} {time : TimeOfDay} (h : TimeText text time) :
    parseTime text = .ok text := by
  have hascii := h.ascii
  cases h with
  | mk hhour hminute hsecond hfraction =>
      have hrange : ¬(23 < time.hour ∨ 59 < time.minute ∨ 59 < time.second) := by
        have := time.hour_lt
        have := time.minute_lt
        have := time.second_lt
        omega
      rw [parseTime_fields hascii hhour.length hminute.length hsecond.length,
        decimal_padded hhour (by decide) (by decide),
        decimal_padded hminute (by decide) (by decide),
        decimal_padded hsecond (by decide) (by decide)]
      exact (if_neg hrange).trans (if_pos (validFraction_iff.mpr ⟨_, hfraction⟩))

theorem parseTime_ne_panic {text : List Char} (h : Ascii text) :
    parseTime text ≠ .error .panic := by
  rcases time_fields h with hbad | ⟨hour, minute, second, fraction, rfl, hhour, hminute, hsecond⟩
  · rw [parseTime, if_pos hbad]
    exact fun h => by cases h
  · rw [parseTime_fields h hhour hminute hsecond]
    refine bind_ne_panic (decimal_ne_panic _) fun _ _ => ?_
    refine bind_ne_panic (decimal_ne_panic _) fun _ _ => ?_
    refine bind_ne_panic (decimal_ne_panic _) fun _ _ => ?_
    split
    · exact fun h => by cases h
    · split <;> exact fun h => by cases h

end Times

section Offsets

/-- The shape of a text that passes the first test of an offset. -/
theorem offset_fields {text : List Char} (h : Ascii text) :
    (byteLength text ≠ 6 ∨ charAtByte 3 text ≠ some ':') ∨
      ∃ sign hour minute, text = sign :: (hour ++ ':' :: minute) ∧ hour.length = 2 ∧
        minute.length = 2 := by
  by_cases hlength : byteLength text = 6
  · rw [h.byteLength] at hlength
    obtain ⟨sign, c, hour, d, minute, rest, rfl, hsign, hhour, hminute⟩ :=
      exists_fields text 0 2 1 (by omega)
    obtain rfl := List.length_eq_zero_iff.mp hsign
    have hchar := @charAtByte_eq _ (c :: hour) (minute ++ rest) d 3 h rfl (by simp [hhour])
    by_cases hd : d = ':'
    · subst hd
      refine .inr ⟨c, hour, minute ++ rest, rfl, hhour, ?_⟩
      simp only [List.nil_append, List.length_cons, List.length_append] at hlength ⊢
      omega
    · refine .inl (.inr ?_)
      rw [hchar]
      exact fun h => hd (Option.some.inj h)
  · exact .inl (.inl hlength)

variable {sign : Char} {hour minute : List Char}

theorem canonicalOffset_fields (h : Ascii (sign :: (hour ++ ':' :: minute)))
    (hhour : hour.length = 2) (hminute : minute.length = 2) :
    canonicalOffset (sign :: (hour ++ ':' :: minute)) = (do
      let hours ← decimal hour
      let minutes ← decimal minute
      if 23 < hours ∨ 59 < minutes ∨ !isOffsetSign sign then
        .error (.message "TOML date-time offset is outside its valid range")
      else if hours = 0 ∧ minutes = 0 then .ok ['Z']
      else .ok (sign :: (hour ++ ':' :: minute))) := by
  have hzulu : ¬(sign :: (hour ++ ':' :: minute) = ['Z'] ∨
      sign :: (hour ++ ':' :: minute) = ['z']) := by
    rintro (hzulu | hzulu) <;> simpa using congrArg List.length hzulu
  have hform : ¬(byteLength (sign :: (hour ++ ':' :: minute)) ≠ 6 ∨
      charAtByte 3 (sign :: (hour ++ ':' :: minute)) ≠ some ':') := by
    rw [not_or, not_not, not_not, h.byteLength]
    refine ⟨by simp [hhour, hminute], ?_⟩
    exact @charAtByte_eq _ (sign :: hour) minute ':' 3 h rfl (by simp [hhour])
  have hhourSlice := @slice_eq _ [sign] hour (':' :: minute) 1 3 h rfl rfl (by rw [hhour])
  have hminuteSlice := @slice_eq _ (sign :: (hour ++ [':'])) minute [] 4 6 h (by simp)
    (by simp [hhour]) (by rw [hminute])
  have hsignByte := @byteAt_eq _ [] (hour ++ ':' :: minute) sign 0 h rfl rfl
  rw [canonicalOffset, if_neg hzulu, if_neg hform, hhourSlice, hminuteSlice, hsignByte]
  rfl

/-- What is read as an offset is one, and is stored with the same meaning. -/
theorem offset_of_canonicalOffset {text stored : List Char} (h : Ascii text)
    (hparse : canonicalOffset text = .ok stored) : ∃ offset, OffsetText text offset := by
  by_cases hzulu : text = ['Z'] ∨ text = ['z']
  · rcases hzulu with rfl | rfl
    · exact ⟨.utc, .zulu rfl⟩
    · exact ⟨.utc, .zulu rfl⟩
  rcases offset_fields h with hbad | ⟨sign, hour, minute, rfl, hhour, hminute⟩
  · rw [canonicalOffset, if_neg hzulu, if_pos hbad] at hparse
    cases hparse
  · rw [canonicalOffset_fields h hhour hminute] at hparse
    obtain ⟨hours, hh, hparse⟩ := bind_eq_ok.mp hparse
    obtain ⟨minutes, hm, hparse⟩ := bind_eq_ok.mp hparse
    obtain ⟨hrange, -⟩ := ite_error_eq_ok.mp hparse
    rw [not_or, not_or, Bool.not_eq_true', Bool.not_eq_false] at hrange
    have hhourText := decimal_ok hh
    have hminuteText := decimal_ok hm
    rw [hhour] at hhourText
    rw [hminute] at hminuteText
    have hbounds : -1440 < signedMinutes sign hours minutes ∧
        signedMinutes sign hours minutes < 1440 := by
      rw [signedMinutes]
      split <;> omega
    exact ⟨⟨_, hbounds⟩, .fixed hrange.2.2 hhourText (by omega) hminuteText (by omega) rfl⟩

theorem isOffsetSign_iff {c : Char} : isOffsetSign c = true ↔ c = '+' ∨ c = '-' := by
  simp [isOffsetSign]

theorem isZulu_iff {c : Char} : isZulu c = true ↔ c = 'Z' ∨ c = 'z' := by simp [isZulu]

theorem OffsetText.ascii {text : List Char} {offset : Offset} (h : OffsetText text offset) :
    Ascii text := by
  cases h with
  | zulu h =>
      rcases isZulu_iff.mp h with rfl | rfl <;>
        exact ascii_cons (by decide) fun c hmem => by cases hmem
  | fixed hsign hhour _ hminute _ _ =>
      have hsignAscii : ∀ c, isOffsetSign c = true → c.toNat < 128 := by
        intro c hc
        rcases isOffsetSign_iff.mp hc with rfl | rfl <;> decide
      exact ascii_cons (hsignAscii _ hsign)
        (ascii_append hhour.ascii (ascii_cons (by decide) hminute.ascii))

/-- Every offset is accepted, and its spelling in the stored text means the same. -/
theorem OffsetText.canonicalOffset {text : List Char} {offset : Offset}
    (h : OffsetText text offset) :
    ∃ stored, canonicalOffset text = .ok stored ∧ OffsetText stored offset := by
  have hascii := h.ascii
  cases h with
  | zulu h =>
      refine ⟨['Z'], ?_, .zulu rfl⟩
      rcases isZulu_iff.mp h with rfl | rfl <;> rfl
  | @fixed _ sign hour minute hours minutes hsign hhour hhours hminute hminutes hoffset =>
      have hrange : ¬(23 < hours ∨ 59 < minutes ∨ (!isOffsetSign sign) = true) := by
        rw [hsign]
        rintro (h | h | h)
        · omega
        · omega
        · cases h
      have hread := canonicalOffset_fields hascii hhour.length hminute.length
      rw [decimal_padded hhour (by decide) (by decide),
        decimal_padded hminute (by decide) (by decide)] at hread
      by_cases hzero : hours = 0 ∧ minutes = 0
      · refine ⟨['Z'], hread.trans ((if_neg hrange).trans (if_pos hzero)), ?_⟩
        have hutc : offset = Offset.utc := by
          refine Offset.ext ?_
          rw [hoffset, hzero.1, hzero.2, signedMinutes]
          split <;> rfl
        rw [hutc]
        exact .zulu rfl
      · exact ⟨_, hread.trans ((if_neg hrange).trans (if_neg hzero)),
          .fixed hsign hhour hhours hminute hminutes hoffset⟩

theorem canonicalOffset_ne_panic {text : List Char} (h : Ascii text) :
    canonicalOffset text ≠ .error .panic := by
  by_cases hzulu : text = ['Z'] ∨ text = ['z']
  · rw [canonicalOffset, if_pos hzulu]
    exact fun h => by cases h
  rcases offset_fields h with hbad | ⟨sign, hour, minute, rfl, hhour, hminute⟩
  · rw [canonicalOffset, if_neg hzulu, if_pos hbad]
    exact fun h => by cases h
  · rw [canonicalOffset_fields h hhour hminute]
    refine bind_ne_panic (decimal_ne_panic _) fun _ _ => ?_
    refine bind_ne_panic (decimal_ne_panic _) fun _ _ => ?_
    split
    · exact fun h => by cases h
    · split <;> exact fun h => by cases h

/-- A time with an offset behind it is cut in front of it; the letter is stored as a capital. -/
inductive Cut (text : List Char) : List Char → Option (List Char) → Prop
  | zulu {time : List Char} {c : Char} (h : isZulu c = true) (htext : text = time ++ [c]) :
      Cut text time (some ['Z'])
  | signed {time offset : List Char} (htext : text = time ++ offset) :
      Cut text time (some offset)
  | none : Cut text text none

theorem splitOffset_cut {text : List Char} (h : Ascii text) :
    ∃ time offset, splitOffset text = .ok (time, offset) ∧ Cut text time offset := by
  by_cases hlast : text.getLast?.any isZulu = true
  · rw [splitOffset, if_pos hlast]
    refine ⟨_, _, rfl, ?_⟩
    cases hc : text.getLast? with
    | none => rw [hc] at hlast; cases hlast
    | some c =>
        rw [hc, Option.any_some] at hlast
        exact .zulu hlast (List.dropLast_append_getLast? c hc).symm
  · rw [splitOffset, if_neg hlast]
    by_cases hlength : 8 < byteLength text
    · have hcut := @cut_eq _ (text.take 8) (text.drop 8) 8 h (List.take_append_drop 8 text).symm
        (List.length_take_of_le (by rw [h.byteLength] at hlength; omega))
      rw [if_pos hlength, hcut]
      by_cases hsign : (text.drop 8).dropWhile (!isOffsetSign ·) = []
      · exact ⟨text, none, if_pos hsign, .none⟩
      · refine ⟨_, _, if_neg hsign, .signed ?_⟩
        rw [List.append_assoc, List.takeWhile_append_dropWhile, List.take_append_drop]
    · rw [if_neg hlength]
      exact ⟨text, none, rfl, .none⟩

theorem not_offsetSign_of_isDigit {c : Char} (h : c.isDigit = true) : isOffsetSign c = false := by
  rw [← Bool.not_eq_true, isOffsetSign_iff]
  rintro (rfl | rfl) <;> cases h

theorem not_zulu_of_isDigit {c : Char} (h : c.isDigit = true) : isZulu c = false := by
  rw [← Bool.not_eq_true, isZulu_iff]
  rintro (rfl | rfl) <;> cases h

/-- Some digits end with a digit. -/
theorem exists_last_digit {digits : List Char} (hne : digits ≠ [])
    (h : ∀ c ∈ digits, c.isDigit = true) : ∃ front c, digits = front ++ [c] ∧ c.isDigit = true := by
  rcases List.eq_nil_or_concat' digits with rfl | ⟨front, c, rfl⟩
  · exact absurd rfl hne
  · exact ⟨front, c, rfl, h c (List.mem_append_right _ List.mem_cons_self)⟩

theorem Padded.exists_last {width number : Nat} {text : List Char} (h : Padded width text number)
    (hpos : 0 < width) : ∃ front c, text = front ++ [c] ∧ c.isDigit = true := by
  refine exists_last_digit ?_ h.isDigit
  rintro rfl
  exact absurd h.length (Nat.ne_of_lt hpos)

/-- A time has eight characters and a fraction, and ends with a digit. -/
theorem TimeText.parts {text : List Char} {time : TimeOfDay} (h : TimeText text time) :
    (∃ front fraction, text = front ++ fraction ∧ front.length = 8 ∧
      ∀ c ∈ fraction, isOffsetSign c = false) ∧
    ∃ front c, text = front ++ [c] ∧ c.isDigit = true := by
  cases h with
  | @mk _ hour minute second fraction hhour hminute hsecond hfraction =>
      refine ⟨⟨hour ++ ':' :: (minute ++ ':' :: second), fraction, by simp,
        by simp [hhour.length, hminute.length, hsecond.length], fun c hmem => ?_⟩, ?_⟩
      · rcases hfraction.char c hmem with rfl | hc
        · rfl
        · exact not_offsetSign_of_isDigit hc
      · generalize time.fraction = digits at hfraction
        cases hfraction with
        | none =>
            obtain ⟨front, c, rfl, hc⟩ := hsecond.exists_last (by decide)
            exact ⟨hour ++ ':' :: (minute ++ ':' :: front), c, by simp, hc⟩
        | @digits digits hne hdigits =>
            obtain ⟨front, c, rfl, hc⟩ := exists_last_digit hne hdigits
            exact ⟨hour ++ ':' :: (minute ++ ':' :: (second ++ '.' :: front)), c, by simp, hc⟩

theorem getLast_not_zulu {text : List Char}
    (h : ∃ front c, text = front ++ [c] ∧ c.isDigit = true) :
    ¬ text.getLast?.any isZulu = true := by
  obtain ⟨front, c, rfl, hc⟩ := h
  rw [List.getLast?_concat, Option.any_some, not_zulu_of_isDigit hc]
  exact Bool.false_ne_true

theorem dropWhile_offset {fraction rest : List Char} (h : ∀ c ∈ fraction, isOffsetSign c = false)
    (hrest : ∀ c ∈ rest.head?, isOffsetSign c = true) :
    (fraction ++ rest).dropWhile (!isOffsetSign ·) = rest ∧
      (fraction ++ rest).takeWhile (!isOffsetSign ·) = fraction := by
  have hnot : ∀ c ∈ fraction, (!isOffsetSign c) = true := fun c hmem => by rw [h c hmem]; rfl
  rw [List.dropWhile_append_of_pos hnot, List.takeWhile_append_of_pos hnot]
  cases rest with
  | nil => exact ⟨rfl, List.append_nil _⟩
  | cons c rest =>
      have hc := hrest c rfl
      constructor
      · rw [List.dropWhile_cons_of_neg (by rw [hc]; decide)]
      · rw [List.takeWhile_cons_of_neg (by rw [hc]; decide), List.append_nil]

/-- Nothing is cut off a time alone. -/
theorem TimeText.splitOffset {text : List Char} {time : TimeOfDay} (h : TimeText text time) :
    splitOffset text = .ok (text, none) := by
  have hascii := h.ascii
  obtain ⟨⟨front, fraction, rfl, hfront, hfraction⟩, hlast⟩ := h.parts
  rw [Toml.splitOffset, if_neg (getLast_not_zulu hlast)]
  split
  · have hdrop := (@dropWhile_offset fraction [] hfraction fun c hc => by cases hc).1
    rw [List.append_nil] at hdrop
    rw [cut_eq hascii rfl hfront]
    exact if_pos hdrop
  · rfl

/-- An offset is cut off behind a time. -/
theorem TimeText.splitOffset_append {text offsetText : List Char} {time : TimeOfDay}
    {offset : Offset} (h : TimeText text time) (hoffset : OffsetText offsetText offset) :
    ∃ stored, Toml.splitOffset (text ++ offsetText) = .ok (text, some stored) ∧
      OffsetText stored offset := by
  have hascii := ascii_append h.ascii hoffset.ascii
  have hwhole := hoffset
  cases hoffset with
  | @zulu c hc =>
      refine ⟨['Z'], ?_, .zulu rfl⟩
      rw [Toml.splitOffset, List.getLast?_concat, Option.any_some, if_pos hc,
        List.dropLast_concat]
  | @fixed _ sign hour minute hours minutes hsign hhour _ hminute _ _ =>
      refine ⟨sign :: (hour ++ ':' :: minute), ?_, hwhole⟩
      obtain ⟨⟨front, fraction, rfl, hfront, hfraction⟩, -⟩ := h.parts
      obtain ⟨init, c, rfl, hc⟩ := hminute.exists_last (by decide)
      have hlast : ∃ start d, front ++ fraction ++ sign :: (hour ++ ':' :: (init ++ [c])) =
          start ++ [d] ∧ d.isDigit = true :=
        ⟨front ++ fraction ++ sign :: (hour ++ ':' :: init), c, by simp, hc⟩
      have hlength : 8 <
          byteLength (front ++ fraction ++ sign :: (hour ++ ':' :: (init ++ [c]))) := by
        rw [hascii.byteLength]
        simp only [List.length_append, List.length_cons]
        omega
      obtain ⟨hdrop, htake⟩ := @dropWhile_offset fraction
        (sign :: (hour ++ ':' :: (init ++ [c]))) hfraction fun d hd => by
          obtain rfl := Option.some.inj hd
          exact hsign
      rw [Toml.splitOffset, if_neg (getLast_not_zulu hlast), if_pos hlength,
        cut_eq hascii (List.append_assoc _ _ _) hfront]
      refine (if_neg ?_).trans ?_
      · rw [hdrop]
        exact List.cons_ne_nil _ _
      · rw [hdrop, htake]

end Offsets

section DateTimes

/-- The shape of a text that looks like a date. -/
theorem date_fields {text : List Char} (h : Ascii text) (hlength : 10 ≤ byteLength text)
    (hfirst : charAtByte 4 text = some '-') (hsecond : charAtByte 7 text = some '-') :
    ∃ year month day rest, text = year ++ '-' :: (month ++ '-' :: day) ++ rest ∧
      year.length = 4 ∧ month.length = 2 ∧ day.length = 2 := by
  rw [h.byteLength] at hlength
  obtain ⟨year, c, month, d, day, rest, rfl, hyear, hmonth, hday⟩ :=
    exists_fields text 4 2 2 (by omega)
  rw [charAtByte_eq h rfl hyear] at hfirst
  rw [@charAtByte_eq _ (year ++ c :: month) (day ++ rest) d 7 h (by simp)
    (by simp [hyear, hmonth])] at hsecond
  obtain rfl := Option.some.inj hfirst
  obtain rfl := Option.some.inj hsecond
  exact ⟨year, month, day, rest, by simp, hyear, hmonth, hday⟩

/-- What follows a date of ten characters. -/
theorem parseDateTime_append {date rest : List Char} (h : Ascii (date ++ rest))
    (hdate : date.length = 10) :
    parseDateTime (date ++ rest) = (do
      validateDate date
      match rest with
      | [] => .ok (.localDate, date)
      | separator :: remainder =>
          if separator ∉ ['T', 't', ' '] then
            .error (.message "invalid TOML date-time separator")
          else do
            let (time, offset) ← splitOffset remainder
            let time ← parseTime time
            match offset with
            | some offset => do
                let offset ← canonicalOffset offset
                .ok (.offsetDateTime, date ++ 'T' :: (time ++ offset))
            | none => .ok (.localDateTime, date ++ 'T' :: time)) := by
  have hslice := @slice_eq _ [] date rest 0 10 h rfl rfl (by rw [hdate])
  rw [parseDateTime, hslice]
  change (do
    validateDate date
    if byteLength (date ++ rest) = 10 then _ else _) = _
  cases rest with
  | nil =>
      have hlength : byteLength (date ++ []) = 10 := by rw [h.byteLength, List.append_nil, hdate]
      rw [if_pos hlength]
  | cons separator remainder =>
      have hlength : byteLength (date ++ separator :: remainder) ≠ 10 := by
        rw [h.byteLength, List.length_append, List.length_cons, hdate]
        omega
      have hcut := @cut_eq _ (date ++ [separator]) remainder 11 h (by simp) (by simp [hdate])
      rw [if_neg hlength, byteAt_eq h rfl hdate, hcut]
      cases validateDate date with
      | error failure => rfl
      | ok _ =>
          change (if (!(some separator).any (· ∈ ['T', 't', ' '])) = true then _ else _) =
            (if separator ∉ ['T', 't', ' '] then _ else _)
          by_cases hseparator : separator ∈ ['T', 't', ' ']
          · rw [if_neg (not_not.mpr hseparator),
              if_neg (by rw [Option.any_some, decide_eq_true hseparator]; decide)]
            rfl
          · rw [if_pos hseparator,
              if_pos (by rw [Option.any_some, decide_eq_false hseparator]; rfl)]

/-- The test for a date. -/
def LooksLikeDate (text : List Char) : Prop :=
  10 ≤ byteLength text ∧ charAtByte 4 text = some '-' ∧ charAtByte 7 text = some '-'

theorem DateText.looksLikeDate {date rest : List Char} {day : Date} (h : DateText date day)
    (hascii : Ascii (date ++ rest)) : LooksLikeDate (date ++ rest) := by
  have hlength : 10 ≤ byteLength (date ++ rest) := by
    rw [hascii.byteLength, List.length_append, h.length]
    omega
  cases h with
  | @mk _ year month day hyear hmonth hday =>
      exact ⟨hlength, charAtByte_eq hascii (List.append_assoc _ _ _) hyear.length,
        @charAtByte_eq _ (year ++ '-' :: month) (day ++ rest) '-' 7 hascii (by simp)
          (by simp [hyear.length, hmonth.length])⟩

/-- No time looks like a date. -/
theorem TimeText.not_looksLikeDate {text : List Char} {time : TimeOfDay} (h : TimeText text time) :
    ¬ LooksLikeDate text := by
  rintro ⟨-, hdash, -⟩
  have hascii := h.ascii
  cases h with
  | @mk _ hour minute second fraction hhour hminute hsecond hfraction =>
      obtain ⟨front, c, rfl, hc⟩ := hminute.exists_last (by decide)
      have hfront := hminute.length
      rw [List.length_append, List.length_singleton] at hfront
      rw [@charAtByte_eq _ (hour ++ ':' :: front) (':' :: (second ++ fraction)) c 4 hascii (by simp)
        (by simp only [List.length_append, List.length_cons, hhour.length]; omega)] at hdash
      obtain rfl := Option.some.inj hdash
      cases hc

theorem Cut.append {text time : List Char} {offset : Option (List Char)}
    (h : Cut text time offset) : ∃ rest, text = time ++ rest := by
  cases h with
  | zulu _ htext => exact ⟨_, htext⟩
  | signed htext => exact ⟨_, htext⟩
  | none => exact ⟨[], (List.append_nil text).symm⟩

/-- What is accepted behind a date denotes a date or a date-time. -/
theorem denotes_of_parseDateTime {date rest stored : List Char} {tag : TemporalTag}
    (h : Ascii (date ++ rest)) (hdate : date.length = 10)
    (hvalid : validateDate date = .ok () → ∃ day, DateText date day)
    (hparse : parseDateTime (date ++ rest) = .ok (tag, stored)) :
    ∃ temporal, Denotes (date ++ rest) temporal := by
  rw [parseDateTime_append h hdate] at hparse
  obtain ⟨_, hvalidate, hparse⟩ := bind_eq_ok.mp hparse
  obtain ⟨day, hday⟩ := hvalid hvalidate
  cases rest with
  | nil =>
      rw [List.append_nil]
      exact ⟨_, .localDate hday⟩
  | cons separator remainder =>
      obtain ⟨hseparator, hparse⟩ := ite_error_eq_ok.mp hparse
      rw [not_not] at hseparator
      have hremainder := h.of_append.2.of_cons.2
      obtain ⟨time, offset, hsplit, hcut⟩ := splitOffset_cut hremainder
      obtain ⟨sides, hsides, hparse⟩ := bind_eq_ok.mp hparse
      rw [hsplit] at hsides
      cases hsides
      obtain ⟨rest, hrest⟩ := hcut.append
      have hascii := (hrest ▸ hremainder).of_append.1
      obtain ⟨checked, hchecked, hparse⟩ := bind_eq_ok.mp hparse
      obtain ⟨-, moment, hmoment⟩ := time_of_parseTime hascii hchecked
      cases hcut with
      | none => exact ⟨_, .localDateTime hday hseparator hmoment⟩
      | zulu hzulu htext =>
          rw [htext]
          exact ⟨_, .offsetDateTime hday hseparator hmoment (.zulu hzulu)⟩
      | signed htext =>
          obtain ⟨canonical, hcanonical, -⟩ := bind_eq_ok.mp hparse
          obtain ⟨offset, hoffset⟩ :=
            offset_of_canonicalOffset (htext ▸ hremainder).of_append.2 hcanonical
          rw [htext]
          exact ⟨_, .offsetDateTime hday hseparator hmoment hoffset⟩

theorem parseDateTime_ne_panic {date rest : List Char} (h : Ascii (date ++ rest))
    (hdate : date.length = 10) (hvalid : validateDate date ≠ .error .panic) :
    parseDateTime (date ++ rest) ≠ .error .panic := by
  rw [parseDateTime_append h hdate]
  refine bind_ne_panic hvalid fun _ _ => ?_
  cases rest with
  | nil => exact fun h => by cases h
  | cons separator remainder =>
      have hremainder := h.of_append.2.of_cons.2
      obtain ⟨time, offset, hsplit, hcut⟩ := splitOffset_cut hremainder
      simp only
      split
      · exact fun h => by cases h
      rw [hsplit]
      obtain ⟨rest, hrest⟩ := hcut.append
      refine bind_ne_panic (fun h => by cases h) fun sides hsides => ?_
      cases hsides
      refine bind_ne_panic (parseTime_ne_panic (hrest ▸ hremainder).of_append.1) fun _ _ => ?_
      cases hcut with
      | none => exact fun h => by cases h
      | zulu => exact fun h => by cases h
      | signed htext =>
          exact bind_ne_panic (canonicalOffset_ne_panic (htext ▸ hremainder).of_append.2)
            fun _ _ h => by cases h

theorem Denotes.ascii {text : List Char} {temporal : Temporal} (h : Denotes text temporal) :
    Ascii text := by
  have hcons : ∀ {c : Char} {text : List Char}, c ∈ ['T', 't', ' '] → Ascii text →
      Ascii (c :: text) := by
    intro c text hc htext
    simp only [List.mem_cons, List.not_mem_nil, or_false] at hc
    rcases hc with rfl | rfl | rfl <;> exact ascii_cons (by decide) htext
  cases h with
  | localDate h => exact h.ascii
  | localTime h => exact h.ascii
  | localDateTime hdate hseparator htime =>
      exact ascii_append hdate.ascii (hcons hseparator htime.ascii)
  | offsetDateTime hdate hseparator htime hoffset =>
      exact ascii_append hdate.ascii (hcons hseparator (ascii_append htime.ascii hoffset.ascii))

/-- Everything of the grammar is accepted, and stored with the same meaning. -/
theorem Denotes.parseTemporal {text : List Char} {temporal : Temporal} (h : Denotes text temporal) :
    ∃ stored, parseTemporal text = some (.ok (temporalTag temporal, stored)) ∧
      Denotes stored temporal := by
  have hascii := h.ascii
  cases h with
  | @localDate _ date h =>
      have hlooks := @DateText.looksLikeDate text [] date h (by rwa [List.append_nil])
      have hread := @parseDateTime_append text [] (by rwa [List.append_nil]) h.length
      rw [List.append_nil] at hlooks hread
      rw [h.validateDate] at hread
      exact ⟨text, (if_pos hlooks).trans (congrArg some hread), .localDate h⟩
  | @localTime _ time h =>
      have hform : 8 ≤ byteLength text ∧ charAtByte 2 text = some ':' ∧
          charAtByte 5 text = some ':' := by
        rcases time_fields hascii with hbad | ⟨hour, minute, second, fraction, rfl, hh, hm, hs⟩
        · have hparse := h.parseTime
          rw [Toml.parseTime, if_pos hbad] at hparse
          cases hparse
        · refine ⟨?_, charAtByte_eq hascii rfl hh, ?_⟩
          · rw [hascii.byteLength]
            simp only [List.length_append, List.length_cons]
            omega
          · exact @charAtByte_eq _ (hour ++ ':' :: minute) (second ++ fraction) ':' 5 hascii
              (by simp) (by simp [hh, hm])
      refine ⟨text, ?_, .localTime h⟩
      refine (if_neg h.not_looksLikeDate).trans ((if_pos hform).trans ?_)
      rw [h.parseTime]
      rfl
  | @localDateTime date time separator day moment hdate hseparator htime =>
      have hread := parseDateTime_append hascii hdate.length
      rw [hdate.validateDate] at hread
      change _ = (if separator ∉ ['T', 't', ' '] then _ else _) at hread
      rw [if_neg (not_not.mpr hseparator), htime.splitOffset] at hread
      change _ = (do
        let time ← Toml.parseTime time
        _) at hread
      rw [htime.parseTime] at hread
      exact ⟨_, (if_pos (hdate.looksLikeDate hascii)).trans (congrArg some hread),
        .localDateTime hdate (by decide) htime⟩
  | @offsetDateTime date time offsetText separator day moment offset hdate hseparator htime
      hoffset =>
      obtain ⟨cutOffset, hsplit, hcutOffset⟩ := htime.splitOffset_append hoffset
      obtain ⟨stored, hcanonical, hstored⟩ := hcutOffset.canonicalOffset
      have hread := parseDateTime_append hascii hdate.length
      rw [hdate.validateDate] at hread
      change _ = (if separator ∉ ['T', 't', ' '] then _ else _) at hread
      rw [if_neg (not_not.mpr hseparator), hsplit] at hread
      change _ = (do
        let time ← Toml.parseTime time
        _) at hread
      rw [htime.parseTime] at hread
      change _ = (do
        let offset ← Toml.canonicalOffset cutOffset
        _) at hread
      rw [hcanonical] at hread
      exact ⟨_, (if_pos (hdate.looksLikeDate hascii)).trans (congrArg some hread),
        .offsetDateTime hdate (by decide) htime hstored⟩

/-- Exactly the dates and times of the grammar are accepted, what is stored denotes the same
date, time and offset as the text, and no atom panics. -/
theorem parseTemporal_exact (text : List Char) (h : Atom text) :
    (∀ tag stored, parseTemporal text = some (.ok (tag, stored)) →
      ∃ temporal, Denotes text temporal) ∧
    (∀ temporal, Denotes text temporal → ∃ stored,
      parseTemporal text = some (.ok (temporalTag temporal, stored)) ∧ Denotes stored temporal) ∧
    parseTemporal text ≠ some (.error .panic) := by
  have hascii := h.ascii
  refine ⟨fun tag stored hparse => ?_, fun temporal hdenotes => hdenotes.parseTemporal,
    fun hpanic => ?_⟩
  · rw [parseTemporal] at hparse
    split at hparse
    · next hlooks =>
        obtain ⟨year, month, day, rest, rfl, hyear, hmonth, hday⟩ :=
          date_fields hascii hlooks.1 hlooks.2.1 hlooks.2.2
        exact denotes_of_parseDateTime hascii (by simp [hyear, hmonth, hday])
          (date_of_validateDate hascii.of_append.1 hyear hmonth hday) (Option.some.inj hparse)
    · split at hparse
      · obtain ⟨time, htime, -⟩ := bind_eq_ok.mp (Option.some.inj hparse)
        obtain ⟨-, moment, hmoment⟩ := time_of_parseTime hascii htime
        exact ⟨_, .localTime hmoment⟩
      · cases hparse
  · rw [parseTemporal] at hpanic
    split at hpanic
    · next hlooks =>
        obtain ⟨year, month, day, rest, rfl, hyear, hmonth, hday⟩ :=
          date_fields hascii hlooks.1 hlooks.2.1 hlooks.2.2
        exact parseDateTime_ne_panic hascii (by simp [hyear, hmonth, hday])
          (validateDate_ne_panic hascii.of_append.1 hyear hmonth hday) (Option.some.inj hpanic)
    · split at hpanic
      · exact bind_ne_panic (parseTime_ne_panic hascii) (fun _ _ h => by cases h)
          (Option.some.inj hpanic)
      · cases hpanic

/-- A leap day with a fraction and an offset. -/
theorem parseTemporal_exact_leap_day :
    (∀ tag stored, parseTemporal "2024-02-29 23:59:59.50+14:00".toList = some (.ok (tag, stored)) →
      ∃ temporal, Denotes "2024-02-29 23:59:59.50+14:00".toList temporal) ∧
    (∀ temporal, Denotes "2024-02-29 23:59:59.50+14:00".toList temporal → ∃ stored,
      parseTemporal "2024-02-29 23:59:59.50+14:00".toList =
        some (.ok (temporalTag temporal, stored)) ∧ Denotes stored temporal) ∧
    parseTemporal "2024-02-29 23:59:59.50+14:00".toList ≠ some (.error .panic) :=
  parseTemporal_exact "2024-02-29 23:59:59.50+14:00".toList
    (@Atom.merged "2024-02-29".toList "23:59:59.50+14:00".toList
      (.part (by decide) (List.all_eq_true.mp rfl))
      (@AtomToken.dotted "23:59:59".toList "50+14:00".toList (by decide)
        (List.all_eq_true.mp rfl) (.part (by decide) (List.all_eq_true.mp rfl))))

end DateTimes

end Telora.Toml
