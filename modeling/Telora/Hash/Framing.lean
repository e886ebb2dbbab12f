import Telora.Hash.Streaming
import Telora.Library.Utf8

/-!
# Structured hashing

The natives of `std/hash` absorb framed values: a byte for the kind, the length of what has no
fixed length, and the content. No frame starts another one, so the stream determines the values.
-/

namespace Telora.Hash

open Library Library.Sha256

def PROTOCOL_PREFIX : List UInt8 := utf8 "telora.hash".toList ++ [0, 1]

def initialContext : Context := Context.default.update PROTOCOL_PREFIX

def updateBytes (state : Context) (bytes : List UInt8) : Context :=
  ((state.update [1]).update (numberBytes 8 bytes.length)).update bytes

def updateString (state : Context) (string : String) : Context :=
  ((state.update [2]).update (numberBytes 8 (utf8 string.toList).length)).update
    (utf8 string.toList)

/-- A negative integer is written as its complement. -/
def updateInt (state : Context) (value : Int) : Context :=
  (state.update [3]).update (numberBytes 8 (value % 2 ^ 64).toNat)

section Frames

/-- No slice of memory is longer. -/
def Fits (bytes : List UInt8) : Prop := bytes.length < 2 ^ 63

/-- A framed update. -/
inductive Update where
  | bytes (value : List UInt8) (fits : Fits value)
  | string (value : String) (fits : Fits (utf8 value.toList))
  | int (value : Int) (fits : -2 ^ 63 ≤ value ∧ value < 2 ^ 63)

def Update.apply (state : Context) : Update → Context
  | .bytes value _ => updateBytes state value
  | .string value _ => updateString state value
  | .int value _ => updateInt state value

/-- The bytes that an update absorbs. -/
def Update.frame : Update → List UInt8
  | .bytes value _ => 1 :: (numberBytes 8 value.length ++ value)
  | .string value _ => 2 :: (numberBytes 8 (utf8 value.toList).length ++ utf8 value.toList)
  | .int value _ => 3 :: numberBytes 8 (value % 2 ^ 64).toNat

/-- The context behind some updates of a fresh one. -/
def runUpdates (updates : List Update) : Context := updates.foldl Update.apply initialContext

/-- What the context absorbed behind some updates. -/
def stream (updates : List Update) : List UInt8 := PROTOCOL_PREFIX ++ updates.flatMap Update.frame

theorem Absorbed.apply {context : Context} {absorbed : List UInt8}
    (h : Absorbed context absorbed) (update : Update) :
    Absorbed (update.apply context) (absorbed ++ update.frame) := by
  cases update with
  | bytes value fits =>
      have := ((h.update [1]).update (numberBytes 8 value.length)).update value
      rwa [List.append_assoc, List.append_assoc] at this
  | string value fits =>
      have := ((h.update [2]).update (numberBytes 8 (utf8 value.toList).length)).update
        (utf8 value.toList)
      rwa [List.append_assoc, List.append_assoc] at this
  | int value fits =>
      have := (h.update [3]).update (numberBytes 8 (value % 2 ^ 64).toNat)
      rwa [List.append_assoc] at this

/-- A run absorbs its stream. -/
theorem absorbed_runUpdates (updates : List Update) :
    Absorbed (runUpdates updates) (stream updates) := by
  have hrun : ∀ (updates : List Update) {context : Context} {absorbed : List UInt8},
      Absorbed context absorbed → Absorbed (updates.foldl Update.apply context)
        (absorbed ++ updates.flatMap Update.frame) := by
    intro updates
    induction updates with
    | nil =>
        intro context absorbed h
        rwa [List.flatMap_nil, List.append_nil]
    | cons update updates ih =>
        intro context absorbed h
        rw [List.flatMap_cons, ← List.append_assoc]
        exact ih (h.apply update)
  exact hrun updates (Absorbed.default.update PROTOCOL_PREFIX)

theorem utf8_injective {text other : String} (h : utf8 text.toList = utf8 other.toList) :
    text = other := by
  have hbytes : text.toList.utf8Encode = other.toList.utf8Encode :=
    congrArg List.toByteArray h
  rw [String.utf8Encode_toList, String.utf8Encode_toList] at hbytes
  exact String.toByteArray_inj.mp hbytes

/-- A length and as many bytes determine the bytes and what is behind them. -/
theorem lengthFrame_inj {bytes other rest behind : List UInt8} (hbytes : Fits bytes)
    (hother : Fits other)
    (h : numberBytes 8 bytes.length ++ bytes ++ rest =
      numberBytes 8 other.length ++ other ++ behind) : bytes = other ∧ rest = behind := by
  rw [List.append_assoc, List.append_assoc] at h
  obtain ⟨hlength, htail⟩ := List.append_inj h (by rw [length_numberBytes, length_numberBytes])
  have hsame := numberBytes_inj hlength
  rw [Fits] at hbytes hother
  rw [Nat.mod_eq_of_lt (by omega), Nat.mod_eq_of_lt (by omega)] at hsame
  exact List.append_inj htail hsame

/-- No frame starts another one. -/
theorem frame_inj {update other : Update} {rest behind : List UInt8}
    (h : update.frame ++ rest = other.frame ++ behind) : update = other ∧ rest = behind := by
  cases update with
  | bytes value fits =>
      cases other with
      | bytes value' fits' =>
          obtain ⟨rfl, hrest⟩ := lengthFrame_inj fits fits' (List.cons.inj h).2
          exact ⟨rfl, hrest⟩
      | string value' fits' => exact absurd (List.cons.inj h).1 (by decide)
      | int value' fits' => exact absurd (List.cons.inj h).1 (by decide)
  | string value fits =>
      cases other with
      | bytes value' fits' => exact absurd (List.cons.inj h).1 (by decide)
      | string value' fits' =>
          obtain ⟨htext, hrest⟩ := lengthFrame_inj fits fits' (List.cons.inj h).2
          obtain rfl := utf8_injective htext
          exact ⟨rfl, hrest⟩
      | int value' fits' => exact absurd (List.cons.inj h).1 (by decide)
  | int value fits =>
      cases other with
      | bytes value' fits' => exact absurd (List.cons.inj h).1 (by decide)
      | string value' fits' => exact absurd (List.cons.inj h).1 (by decide)
      | int value' fits' =>
          obtain ⟨hnumber, hrest⟩ := List.append_inj (List.cons.inj h).2
            (by rw [length_numberBytes, length_numberBytes])
          have hsame := numberBytes_inj hnumber
          have hvalue : value = value' := by omega
          subst hvalue
          exact ⟨rfl, hrest⟩

theorem frames_inj {updates others : List Update}
    (h : updates.flatMap Update.frame = others.flatMap Update.frame) : updates = others := by
  have hne : ∀ (update : Update) (rest : List UInt8), update.frame ++ rest ≠ [] := by
    intro update rest
    cases update <;> exact List.cons_ne_nil _ _
  induction updates generalizing others with
  | nil =>
      cases others with
      | nil => rfl
      | cons other others => exact absurd h.symm (hne other _)
  | cons update updates ih =>
      cases others with
      | nil => exact absurd h (hne update _)
      | cons other others =>
          obtain ⟨rfl, hrest⟩ := frame_inj h
          rw [ih hrest]

/-- Runs absorb the same bytes only where their updates are the same; other updates have the same
digest only where two messages collide. -/
theorem structured_injective (updates others : List Update) :
    Absorbed (runUpdates updates) (stream updates) ∧
      (stream updates = stream others → updates = others) ∧
      (updates ≠ others → 8 * (stream updates).length < 2 ^ 64 →
        8 * (stream others).length < 2 ^ 64 →
        (runUpdates updates).finish = (runUpdates others).finish →
        stream updates ≠ stream others ∧
          digest (bits (stream updates)) = digest (bits (stream others))) := by
  have hinjective : stream updates = stream others → updates = others := fun h =>
    frames_inj (List.append_cancel_left h)
  refine ⟨absorbed_runUpdates updates, hinjective, fun hne hfits hfits' hsame => ?_⟩
  refine ⟨fun h => hne (hinjective h), ?_⟩
  rw [← (absorbed_runUpdates updates).finish hfits, hsame,
    (absorbed_runUpdates others).finish hfits']

end Frames

end Telora.Hash
