import Mathlib.Algebra.GroupWithZero.Nat
import Mathlib.Data.List.DropRight

/-!
# Text as a list of characters

Byte lengths, Unicode white space and trimming, with what they do to a text that
neither starts nor ends with white space, and the first occurrence of a pattern.
-/

namespace Telora.Library

/-- The length of a text in UTF-8. -/
def byteLength (text : List Char) : Nat := (text.map Char.utf8Size).sum

/-- The characters with the `White_Space` property. -/
def isWhitespaceChar (c : Char) : Bool :=
  let n := c.toNat
  (0x9 ≤ n && n ≤ 0xd) || n == 0x20 || n == 0x85 || n == 0xa0 || n == 0x1680 ||
    (0x2000 ≤ n && n ≤ 0x200a) || n == 0x2028 || n == 0x2029 || n == 0x202f ||
    n == 0x205f || n == 0x3000

def trimStart (text : List Char) : List Char := text.dropWhile isWhitespaceChar

def trimEnd (text : List Char) : List Char := text.rdropWhile isWhitespaceChar

def trim (text : List Char) : List Char := trimEnd (trimStart text)

/-- A text that starts with some other character than white space. -/
def StartsSolid (text : List Char) : Prop :=
  ∃ c rest, text = c :: rest ∧ isWhitespaceChar c = false

/-- A text that ends with some other character than white space. -/
def EndsSolid (text : List Char) : Prop :=
  ∃ front c, text = front ++ [c] ∧ isWhitespaceChar c = false

theorem StartsSolid.ne_nil {text : List Char} (h : StartsSolid text) : text ≠ [] := by
  obtain ⟨c, rest, rfl, -⟩ := h
  exact List.cons_ne_nil _ _

theorem StartsSolid.append {text : List Char} (h : StartsSolid text) (more : List Char) :
    StartsSolid (text ++ more) := by
  obtain ⟨c, rest, rfl, hc⟩ := h
  exact ⟨c, rest ++ more, rfl, hc⟩

theorem EndsSolid.append {text : List Char} (h : EndsSolid text) (more : List Char) :
    EndsSolid (more ++ text) := by
  obtain ⟨front, c, rfl, hc⟩ := h
  exact ⟨more ++ front, c, (List.append_assoc _ _ _).symm, hc⟩

theorem StartsSolid.trimStart {text : List Char} (h : StartsSolid text) : trimStart text = text := by
  obtain ⟨c, rest, rfl, hc⟩ := h
  simp [Library.trimStart, hc]

theorem EndsSolid.trimEnd {text : List Char} (h : EndsSolid text) : trimEnd text = text := by
  obtain ⟨front, c, rfl, hc⟩ := h
  exact List.rdropWhile_concat_neg _ _ _ (by simp [hc])

theorem trim_of_solid {text : List Char} (hstart : StartsSolid text) (hend : EndsSolid text) :
    trim text = text := by
  rw [trim, hstart.trimStart, hend.trimEnd]

/-- Trimming keeps the first character that is not white space. -/
theorem StartsSolid.trim {text : List Char} (h : StartsSolid text) :
    StartsSolid (trim text) ∧ (Library.trim text).head? = text.head? := by
  rw [Library.trim, h.trimStart]
  obtain ⟨c, rest, rfl, hc⟩ := h
  have hne : Library.trimEnd (c :: rest) ≠ [] := by
    rw [Library.trimEnd, ne_eq, List.rdropWhile_eq_nil_iff]
    intro hall
    have := hall c List.mem_cons_self
    simp [hc] at this
  obtain ⟨more, hmore⟩ := List.rdropWhile_prefix isWhitespaceChar (c :: rest)
  cases htrim : Library.trimEnd (c :: rest) with
  | nil => exact absurd htrim hne
  | cons d tail =>
      rw [Library.trimEnd] at htrim
      rw [htrim] at hmore
      obtain ⟨rfl, -⟩ := List.cons.inj hmore
      exact ⟨⟨d, tail, rfl, hc⟩, rfl⟩

theorem trimStart_replicate (n : Nat) (text : List Char) :
    trimStart (List.replicate n ' ' ++ text) = trimStart text := by
  induction n with
  | zero => rfl
  | succ n ih =>
      rw [List.replicate_succ, List.cons_append, trimStart,
        List.dropWhile_cons_of_pos (by decide)]
      exact ih

/-- A part between separators has no separator. -/
theorem not_mem_of_mem_splitOn {separator : Char} {text part : List Char}
    (h : part ∈ text.splitOn separator) : separator ∉ part := by
  induction text generalizing part with
  | nil =>
      rw [List.splitOn_nil, List.mem_singleton] at h
      rw [h]
      exact List.not_mem_nil
  | cons c text ih =>
      rw [List.splitOn_cons_eq_if_modifyHead] at h
      by_cases hc : c = separator
      · rw [if_pos (beq_iff_eq.mpr hc), List.mem_cons] at h
        rcases h with rfl | h
        · exact List.not_mem_nil
        · exact ih h
      · rw [if_neg (mt beq_iff_eq.mp hc)] at h
        cases hparts : text.splitOn separator with
        | nil => exact absurd hparts (List.splitOn_ne_nil separator text)
        | cons first rest =>
            rw [hparts] at ih h
            rcases List.mem_cons.mp h with rfl | h
            · rw [List.mem_cons, not_or]
              exact ⟨Ne.symm hc, ih List.mem_cons_self⟩
            · exact ih (List.mem_cons_of_mem _ h)

end Telora.Library
