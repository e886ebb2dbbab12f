import Telora.Library.Utf16

/-!
# Reading JSON text

A reader of the JSON grammar by recursive descent: white space around every token, the escapes
of strings as UTF-16 units, and numbers as their texts. A rendering is read as a value when it is
read so whatever text follows; renderings are put together by the rules at the end.
-/

namespace Telora.Library.JsonReader

inductive Json where
  | null
  | true
  | false
  | number (text : List Char)
  | string (content : List Char)
  | array (items : List Json)
  | object (members : List (List Char × Json))

def isSpace (c : Char) : Bool := c = ' ' || c = '\t' || c = '\n' || c = '\r'

def skipSpace (text : List Char) : List Char := text.dropWhile isSpace

def hexValue (c : Char) : Option Nat :=
  if '0' ≤ c ∧ c ≤ '9' then some (c.toNat - '0'.toNat)
  else if 'a' ≤ c ∧ c ≤ 'f' then some (c.toNat - 'a'.toNat + 10)
  else if 'A' ≤ c ∧ c ≤ 'F' then some (c.toNat - 'A'.toNat + 10)
  else none

def quad (a b c d : Char) : Option Nat :=
  (hexValue a).bind fun a => (hexValue b).bind fun b => (hexValue c).bind fun c =>
    (hexValue d).map fun d => ((a * 16 + b) * 16 + c) * 16 + d

def letterEscape (c : Char) : Option Char :=
  [('"', '"'), ('\\', '\\'), ('/', '/'), ('b', '\x08'), ('f', '\x0c'), ('n', '\n'), ('r', '\r'),
    ('t', '\t')].lookup c

/-- The units of a string up to its closing quote. -/
def readUnits : List Char → Option (List Nat × List Char)
  | [] => none
  | '"' :: rest => some ([], rest)
  | '\\' :: 'u' :: a :: b :: c :: d :: rest =>
      (quad a b c d).bind fun unit =>
        (readUnits rest).map fun (units, rest) => (unit :: units, rest)
  | '\\' :: letter :: rest =>
      (letterEscape letter).bind fun c =>
        (readUnits rest).map fun (units, rest) => (Utf16.encodeChar c ++ units, rest)
  | c :: rest =>
      if c = '\\' ∨ c.toNat < 0x20 then none
      else (readUnits rest).map fun (units, rest) => (Utf16.encodeChar c ++ units, rest)

/-- A string after its opening quote. -/
def readString (text : List Char) : Option (List Char × List Char) :=
  (readUnits text).bind fun (units, rest) => (Utf16.decode units).map (·, rest)

def digits (text : List Char) : List Char := text.takeWhile Char.isDigit

/-- A part of a number that is left out when no digit follows its mark. -/
def optionalDigits (mark : List Char) (text : List Char) : List Char × List Char :=
  if digits text = [] then ([], mark ++ text)
  else (mark ++ digits text, text.drop (digits text).length)

def integer : List Char → Option (List Char × List Char)
  | '0' :: rest => some (['0'], rest)
  | text => if digits text = [] then none else some (digits text, text.drop (digits text).length)

def fraction : List Char → List Char × List Char
  | '.' :: rest => optionalDigits ['.'] rest
  | text => ([], text)

def exponent : List Char → List Char × List Char
  | c :: sign :: rest =>
      if c = 'e' ∨ c = 'E' then
        if sign = '+' ∨ sign = '-' then optionalDigits [c, sign] rest
        else optionalDigits [c] (sign :: rest)
      else ([], c :: sign :: rest)
  | text => ([], text)

def readNumber (text : List Char) : Option (List Char × List Char) :=
  let (sign, text) := match text with
    | '-' :: rest => (['-'], rest)
    | text => ([], text)
  (integer text).map fun (whole, text) =>
    let (fraction, text) := fraction text
    let (exponent, text) := exponent text
    (sign ++ whole ++ fraction ++ exponent, text)

mutual

/-- The value at the start of a text, with what is behind it. -/
def readValue : Nat → List Char → Option (Json × List Char)
  | 0, _ => none
  | fuel + 1, text =>
      match skipSpace text with
      | '"' :: rest => (readString rest).map fun (content, rest) => (.string content, rest)
      | '[' :: rest =>
          match skipSpace rest with
          | ']' :: rest => some (.array [], rest)
          | rest => (readItems fuel rest).map fun (items, rest) => (.array items, rest)
      | '{' :: rest =>
          match skipSpace rest with
          | '}' :: rest => some (.object [], rest)
          | rest => (readMembers fuel rest).map fun (members, rest) => (.object members, rest)
      | 'n' :: 'u' :: 'l' :: 'l' :: rest => some (.null, rest)
      | 't' :: 'r' :: 'u' :: 'e' :: rest => some (.true, rest)
      | 'f' :: 'a' :: 'l' :: 's' :: 'e' :: rest => some (.false, rest)
      | text => (readNumber text).map fun (number, rest) => (.number number, rest)

/-- One or more items up to the closing bracket. -/
def readItems : Nat → List Char → Option (List Json × List Char)
  | 0, _ => none
  | fuel + 1, text =>
      (readValue fuel text).bind fun (item, rest) =>
        match skipSpace rest with
        | ']' :: rest => some ([item], rest)
        | ',' :: rest => (readItems fuel rest).map fun (items, rest) => (item :: items, rest)
        | _ => none

/-- One or more members up to the closing brace. -/
def readMembers : Nat → List Char → Option (List (List Char × Json) × List Char)
  | 0, _ => none
  | fuel + 1, text =>
      match skipSpace text with
      | '"' :: rest =>
          (readString rest).bind fun (key, rest) =>
            match skipSpace rest with
            | ':' :: rest =>
                (readValue fuel rest).bind fun (value, rest) =>
                  match skipSpace rest with
                  | '}' :: rest => some ([(key, value)], rest)
                  | ',' :: rest =>
                      (readMembers fuel rest).map fun (members, rest) =>
                        ((key, value) :: members, rest)
                  | _ => none
            | _ => none
      | _ => none

end

/-- The value of a text, with nothing but white space behind it. -/
def read (text : List Char) : Option Json :=
  (readValue (text.length + 1) text).bind fun (value, rest) =>
    if skipSpace rest = [] then some value else none

section Renderings

/-- A text is read as a value whatever follows, and starts with no white space or bracket. -/
structure Reads (text : List Char) (value : Json) : Prop where
  read : ∀ fuel rest, text.length < fuel → readValue fuel (text ++ rest) = some (value, rest)
  start : ∃ c more, text = c :: more ∧ isSpace c = false ∧ c ≠ ']'

/-- The inside of a string is read as a text. -/
def ReadsString (text content : List Char) : Prop :=
  ∀ rest, readString (text ++ '"' :: rest) = some (content, rest)

/-- A key, a colon and a value. -/
def ReadsMember (text : List Char) (member : List Char × Json) : Prop :=
  ∃ key value, text = '"' :: (key ++ '"' :: ':' :: value) ∧ ReadsString key member.1 ∧
    Reads value member.2

theorem Reads.whole {text : List Char} {value : Json} (h : Reads text value) :
    JsonReader.read text = some value := by
  have hvalue := h.read (text.length + 1) [] (Nat.lt_succ_self _)
  rw [List.append_nil] at hvalue
  rw [JsonReader.read, hvalue]
  rfl

theorem ReadsString.reads {text content : List Char} (h : ReadsString text content) :
    Reads ('"' :: (text ++ ['"'])) (.string content) where
  read fuel rest hfuel := by
    cases fuel with
    | zero => cases hfuel
    | succ fuel =>
        have htext : '"' :: (text ++ ['"']) ++ rest = '"' :: (text ++ '"' :: rest) := by simp
        rw [htext, readValue]
        change (readString (text ++ '"' :: rest)).map _ = _
        rw [h rest]
        rfl
  start := ⟨'"', _, rfl, rfl, by decide⟩

theorem skipSpace_of_start {c : Char} (h : isSpace c = false) (text : List Char) :
    skipSpace (c :: text) = c :: text :=
  List.dropWhile_cons_of_neg (by simp [h])

/-- Items with commas between them, up to the bracket. -/
theorem readItems_intercalate {texts : List (List Char)} {values : List Json}
    (h : List.Forall₂ Reads texts values) : texts ≠ [] → ∀ fuel rest,
      ([','].intercalate texts).length + 1 < fuel →
        readItems fuel ([','].intercalate texts ++ ']' :: rest) = some (values, rest) := by
  induction h with
  | nil => exact fun hne => absurd rfl hne
  | @cons text value texts values hvalue hrest ih =>
      intro _ fuel rest hfuel
      cases fuel with
      | zero => cases hfuel
      | succ fuel =>
          cases hrest with
          | nil =>
              rw [List.intercalate_singleton] at hfuel ⊢
              rw [readItems, hvalue.read fuel _ (by omega)]
              rfl
          | @cons next _ more _ _ _ =>
              have hjoin : [','].intercalate (text :: next :: more) =
                  text ++ ',' :: [','].intercalate (next :: more) := by
                rw [List.intercalate_cons_cons]
                exact List.append_assoc text [','] _
              rw [hjoin, List.length_append, List.length_cons] at hfuel
              have hmore := ih (List.cons_ne_nil _ _) fuel rest (by omega)
              rw [hjoin, List.append_assoc, readItems, hvalue.read fuel _ (by omega)]
              change (readItems fuel ([','].intercalate (next :: more) ++ ']' :: rest)).map _ = _
              rw [hmore]
              rfl

theorem intercalate_start {texts : List (List Char)} {c : Char} {more : List Char}
    (h : texts.head? = some (c :: more)) (rest : List Char) :
    ∃ tail, [','].intercalate texts ++ rest = c :: tail := by
  cases texts with
  | nil => cases h
  | cons text texts =>
      obtain rfl : text = c :: more := Option.some.inj h
      cases texts with
      | nil => exact ⟨more ++ rest, by rw [List.intercalate_singleton]; rfl⟩
      | cons next texts =>
          rw [List.intercalate_cons_cons]
          exact ⟨_, rfl⟩

theorem reads_array {texts : List (List Char)} {values : List Json}
    (h : List.Forall₂ Reads texts values) :
    Reads ('[' :: ([','].intercalate texts ++ [']'])) (.array values) where
  read fuel rest hfuel := by
    cases fuel with
    | zero => cases hfuel
    | succ fuel =>
        have htext : '[' :: ([','].intercalate texts ++ [']']) ++ rest =
            '[' :: ([','].intercalate texts ++ ']' :: rest) := by simp
        rw [List.length_cons, List.length_append, List.length_singleton] at hfuel
        rw [htext, readValue, skipSpace_of_start rfl]
        cases h with
        | nil => rfl
        | @cons text value texts values hvalue hrest =>
            obtain ⟨c, more, rfl, hspace, hbracket⟩ := hvalue.start
            have hitems := readItems_intercalate (.cons hvalue hrest) (List.cons_ne_nil _ _) fuel
              rest (by omega)
            obtain ⟨tail, htail⟩ := @intercalate_start ((c :: more) :: texts) _ _ rfl (']' :: rest)
            simp only [htail, skipSpace_of_start hspace] at hitems ⊢
            split
            · next heq => exact absurd (List.cons.inj heq).1 hbracket
            · rw [hitems]
              rfl
  start := ⟨'[', _, rfl, rfl, by decide⟩

/-- Members with commas between them, up to the brace. -/
theorem readMembers_intercalate {texts : List (List Char)} {members : List (List Char × Json)}
    (h : List.Forall₂ ReadsMember texts members) : texts ≠ [] → ∀ fuel rest,
      ([','].intercalate texts).length + 1 < fuel →
        readMembers fuel ([','].intercalate texts ++ '}' :: rest) = some (members, rest) := by
  induction h with
  | nil => exact fun hne => absurd rfl hne
  | @cons text member texts members hmember hrest ih =>
      intro _ fuel rest hfuel
      obtain ⟨key, value, rfl, hkey, hvalue⟩ := hmember
      cases fuel with
      | zero => cases hfuel
      | succ fuel =>
          cases hrest with
          | nil =>
              rw [List.intercalate_singleton] at hfuel ⊢
              simp only [List.length_cons, List.length_append] at hfuel
              have htext : '"' :: (key ++ '"' :: ':' :: value) ++ '}' :: rest =
                  '"' :: (key ++ '"' :: ':' :: (value ++ '}' :: rest)) := by simp
              rw [htext, readMembers, skipSpace_of_start rfl]
              simp only [hkey (':' :: (value ++ '}' :: rest)), Option.bind_some,
                skipSpace_of_start (show isSpace ':' = false from rfl),
                hvalue.read fuel ('}' :: rest) (by omega),
                skipSpace_of_start (show isSpace '}' = false from rfl)]
          | @cons next _ more _ _ _ =>
              have hjoin : [','].intercalate
                  (('"' :: (key ++ '"' :: ':' :: value)) :: next :: more) =
                  '"' :: (key ++ '"' :: ':' :: value) ++
                    ',' :: [','].intercalate (next :: more) := by
                rw [List.intercalate_cons_cons]
                exact List.append_assoc _ [','] _
              rw [hjoin] at hfuel ⊢
              simp only [List.length_cons, List.length_append] at hfuel
              have hmore := ih (List.cons_ne_nil _ _) fuel rest (by omega)
              have htext : '"' :: (key ++ '"' :: ':' :: value) ++
                  ',' :: [','].intercalate (next :: more) ++ '}' :: rest =
                  '"' :: (key ++ '"' :: ':' ::
                    (value ++ ',' :: ([','].intercalate (next :: more) ++ '}' :: rest))) := by simp
              rw [htext, readMembers, skipSpace_of_start rfl]
              simp only [hkey (':' :: (value ++ _)), Option.bind_some,
                skipSpace_of_start (show isSpace ':' = false from rfl),
                hvalue.read fuel _ (show value.length < fuel by omega),
                skipSpace_of_start (show isSpace ',' = false from rfl), hmore, Option.map_some]

theorem reads_object {texts : List (List Char)} {members : List (List Char × Json)}
    (h : List.Forall₂ ReadsMember texts members) :
    Reads ('{' :: ([','].intercalate texts ++ ['}'])) (.object members) where
  read fuel rest hfuel := by
    cases fuel with
    | zero => cases hfuel
    | succ fuel =>
        have htext : '{' :: ([','].intercalate texts ++ ['}']) ++ rest =
            '{' :: ([','].intercalate texts ++ '}' :: rest) := by simp
        rw [List.length_cons, List.length_append, List.length_singleton] at hfuel
        rw [htext, readValue, skipSpace_of_start rfl]
        cases h with
        | nil => rfl
        | @cons text member texts members hmember hrest =>
            have hmembers := readMembers_intercalate (.cons hmember hrest) (List.cons_ne_nil _ _)
              fuel rest (by omega)
            obtain ⟨key, value, rfl, -, -⟩ := hmember
            obtain ⟨tail, htail⟩ := @intercalate_start
              (('"' :: (key ++ '"' :: ':' :: value)) :: texts) _ _ rfl ('}' :: rest)
            simp only [htail, skipSpace_of_start (show isSpace '"' = false from rfl)]
              at hmembers ⊢
            change (readMembers fuel ('"' :: tail)).map _ = _
            rw [hmembers]
            rfl
  start := ⟨'{', _, rfl, rfl, by decide⟩

end Renderings

end Telora.Library.JsonReader
