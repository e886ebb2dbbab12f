import Mathlib.Algebra.Order.Ring.Nat
import Mathlib.Algebra.GroupWithZero.Nat
import Mathlib.Data.Nat.Log
import Mathlib.Tactic.Ring

/-!
# Magnitudes of binary64 numbers and decimals

A magnitude is the word of a nonnegative number with a significand of 53 bits.  Its
`units` count the smallest subnormal number, `2 ^ -shift` (binary64 has the shift
1074); `ofRatio` rounds a ratio to the nearest magnitude with ties to even, and
`shortest` is the decimal with the fewest digits that rounds to a magnitude, the
nearest one if there are several.
-/

namespace Telora.Library.Binary64

variable (shift : Nat)

/-- The word of the infinite magnitude. -/
def infinity : Nat := 2047 * 2 ^ 52

def significand (word : Nat) : Nat :=
  if word / 2 ^ 52 = 0 then word else 2 ^ 52 + word % 2 ^ 52

def unitExponent (word : Nat) : Nat := word / 2 ^ 52 - 1

/-- The magnitude as a multiple of `2 ^ -shift`. -/
def units (word : Nat) : Nat := significand word * 2 ^ unitExponent word

/-- The nearest integer to a ratio, the even one of two. -/
def roundHalfEven (num den : Nat) : Nat :=
  let low := num / den
  let rest := num % den
  if 2 * rest < den ∨ (2 * rest = den ∧ low % 2 = 0) then low else low + 1

/-- The nearest magnitude to a ratio. -/
def ofRatio (num den : Nat) : Nat :=
  let scaled := num * 2 ^ shift
  let exponent := Nat.log2 (scaled / den) - 52
  min (exponent * 2 ^ 52 + roundHalfEven scaled (den * 2 ^ exponent)) infinity

/-- The nearest magnitude to `digits * 10 ^ point`. -/
def ofDecimal (digits : Nat) (point : Int) : Nat :=
  ofRatio shift (digits * 10 ^ point.toNat) (10 ^ (-point).toNat)

/-- The nearest multiple of `10 ^ point` that rounds to the magnitude. -/
def candidate (word : Nat) (point : Int) : Option Nat :=
  let num := units word * 10 ^ (-point).toNat
  let den := 2 ^ shift * 10 ^ point.toNat
  let nearest := roundHalfEven num den
  let low := num / den
  if ofDecimal shift nearest point = word then some nearest
  else if ofDecimal shift low point = word then some low
  else if ofDecimal shift (low + 1) point = word then some (low + 1)
  else none

/-- The first candidate at `10 ^ (index - shift)` or below. -/
def firstFrom (candidate : Int → Option Nat) (exact : Nat) : Nat → Nat × Int
  | 0 => (exact, -shift)
  | index + 1 =>
      match candidate (index + 1 - shift) with
      | some digits => (digits, index + 1 - shift)
      | none => firstFrom candidate exact index

/-- The decimal with the fewest digits that rounds to a magnitude; every magnitude is a
multiple of `10 ^ -shift`. -/
def shortest (word : Nat) : Nat × Int :=
  firstFrom shift (candidate shift word) (units word * 10 ^ shift / 2 ^ shift) (shift + 309)

/-- A magnitude without a fraction. -/
def IsIntegral (word : Nat) : Prop := 2 ^ shift ∣ units word

instance : DecidablePred (IsIntegral shift) := fun word =>
  inferInstanceAs (Decidable (2 ^ shift ∣ units word))

theorem roundHalfEven_mul (quotient : Nat) {den : Nat} (hden : 0 < den) :
    roundHalfEven (quotient * den) den = quotient := by
  simp [roundHalfEven, Nat.mul_div_cancel _ hden, hden]

theorem log2_mul_two_pow {n : Nat} (hn : n ≠ 0) (exponent : Nat) :
    Nat.log2 (n * 2 ^ exponent) = Nat.log2 n + exponent := by
  have hpos : 0 < 2 ^ exponent := Nat.two_pow_pos exponent
  refine (Nat.log2_eq_iff (Nat.mul_ne_zero hn hpos.ne')).mpr ⟨?_, ?_⟩
  · rw [pow_add]
    exact Nat.mul_le_mul_right _ (Nat.log2_self_le hn)
  · rw [show n.log2 + exponent + 1 = n.log2 + 1 + exponent by omega, pow_add]
    exact Nat.mul_lt_mul_of_pos_right Nat.lt_log2_self hpos

/-- A significand is normal, or its unit is the smallest. -/
theorem log2_units (word : Nat) : Nat.log2 (units word) - 52 = unitExponent word := by
  unfold units unitExponent significand
  split
  · next hword =>
      have hlt : word < 2 ^ 52 := by omega
      rw [hword]
      rcases Nat.eq_zero_or_pos word with rfl | hpos
      · rfl
      · have := (Nat.log2_lt (Nat.pos_iff_ne_zero.mp hpos)).mpr hlt
        simp only [Nat.zero_sub, pow_zero, mul_one]
        omega
  · have hmod : word % 2 ^ 52 < 2 ^ 52 := Nat.mod_lt _ (Nat.two_pow_pos 52)
    have hlog : Nat.log2 (2 ^ 52 + word % 2 ^ 52) = 52 :=
      (Nat.log2_eq_iff (by omega)).mpr ⟨by omega, by omega⟩
    rw [log2_mul_two_pow (by omega), hlog]
    omega

/-- The parts of a word. -/
theorem word_eq (word : Nat) : unitExponent word * 2 ^ 52 + significand word = word := by
  unfold unitExponent significand
  split <;> omega

/-- A ratio that is a magnitude rounds to it. -/
theorem ofRatio_of_exact {word num den : Nat} (hword : word < infinity) (hden : 0 < den)
    (h : num * 2 ^ shift = units word * den) : ofRatio shift num den = word := by
  have hscaled : num * 2 ^ shift / den = units word := by
    rw [h, Nat.mul_div_cancel _ hden]
  have hround : roundHalfEven (num * 2 ^ shift) (den * 2 ^ unitExponent word) =
      significand word := by
    rw [h, units, mul_assoc, mul_comm (2 ^ unitExponent word) den]
    exact roundHalfEven_mul _ (Nat.mul_pos hden (Nat.two_pow_pos _))
  simp only [ofRatio, hscaled, log2_units, hround, word_eq]
  omega

/-- The units of a word put together from a rounded significand. -/
theorem units_of_parts {rounded exponent : Nat} (hle : rounded ≤ 2 ^ 53)
    (hnormal : 2 ^ 52 ≤ rounded ∨ exponent = 0) :
    units (exponent * 2 ^ 52 + rounded) = rounded * 2 ^ exponent := by
  unfold units significand unitExponent
  rcases hle.lt_or_eq with hlt | rfl
  · by_cases hsmall : rounded < 2 ^ 52
    · obtain rfl : exponent = 0 := hnormal.resolve_left (by omega)
      have hdiv : (0 * 2 ^ 52 + rounded) / 2 ^ 52 = 0 := by omega
      rw [if_pos hdiv, hdiv, Nat.zero_mul, Nat.zero_add]
    · have hdiv : (exponent * 2 ^ 52 + rounded) / 2 ^ 52 = exponent + 1 := by omega
      have hmod : 2 ^ 52 + (exponent * 2 ^ 52 + rounded) % 2 ^ 52 = rounded := by omega
      rw [if_neg (by omega), hdiv, hmod, Nat.add_sub_cancel]
  · have hdiv : (exponent * 2 ^ 52 + 2 ^ 53) / 2 ^ 52 = exponent + 2 := by omega
    have hmod : (exponent * 2 ^ 52 + 2 ^ 53) % 2 ^ 52 = 0 := by omega
    rw [if_neg (by omega), hdiv, hmod, Nat.add_sub_cancel_right (n := exponent + 1) (m := 1), pow_succ]
    ring

theorem roundHalfEven_bounds (num den : Nat) :
    num / den ≤ roundHalfEven num den ∧ roundHalfEven num den ≤ num / den + 1 := by
  unfold roundHalfEven
  dsimp only
  split <;> omega

/-- A natural number rounds to a magnitude without a fraction. -/
theorem isIntegral_ofRatio {n : Nat} (hshift : 52 ≤ shift)
    (hfinite : ofRatio shift n 1 < infinity) : IsIntegral shift (ofRatio shift n 1) := by
  rcases Nat.eq_zero_or_pos n with rfl | hpos
  · have hzero : ofRatio shift 0 1 = 0 := by
      rw [ofRatio, Nat.zero_mul, Nat.zero_div, Nat.log2_zero]
      simp [roundHalfEven]
    rw [hzero]
    exact dvd_zero _
  have hn : n ≠ 0 := hpos.ne'
  obtain ⟨exponent, hexponent⟩ : ∃ exponent, exponent = Nat.log2 (n * 2 ^ shift) - 52 := ⟨_, rfl⟩
  have hlog : Nat.log2 (n * 2 ^ shift) = Nat.log2 n + shift := log2_mul_two_pow hn shift
  have hscaled : n * 2 ^ shift ≠ 0 := Nat.mul_ne_zero hn (Nat.two_pow_pos _).ne'
  obtain ⟨rounded, hrounded⟩ :
      ∃ rounded, rounded = roundHalfEven (n * 2 ^ shift) (2 ^ exponent) := ⟨_, rfl⟩
  have hword : ofRatio shift n 1 = exponent * 2 ^ 52 + rounded := by
    have hmin : ofRatio shift n 1 = min (exponent * 2 ^ 52 + rounded) infinity := by
      rw [ofRatio, hrounded, hexponent]
      simp only [Nat.div_one, one_mul]
    rw [hmin] at hfinite ⊢
    omega
  -- The quotient has 53 bits.
  have hlow : 2 ^ 52 ≤ n * 2 ^ shift / 2 ^ exponent := by
    rw [Nat.le_div_iff_mul_le (Nat.two_pow_pos _), ← pow_add]
    calc 2 ^ (52 + exponent) = 2 ^ Nat.log2 (n * 2 ^ shift) := by
          rw [show 52 + exponent = Nat.log2 (n * 2 ^ shift) by omega]
      _ ≤ n * 2 ^ shift := Nat.log2_self_le hscaled
  have hhigh : n * 2 ^ shift / 2 ^ exponent < 2 ^ 53 := by
    rw [Nat.div_lt_iff_lt_mul (Nat.two_pow_pos _), ← pow_add]
    calc n * 2 ^ shift < 2 ^ (Nat.log2 (n * 2 ^ shift) + 1) := Nat.lt_log2_self
      _ = 2 ^ (53 + exponent) := by
          rw [show 53 + exponent = Nat.log2 (n * 2 ^ shift) + 1 by omega]
  obtain ⟨hmin, hmax⟩ := roundHalfEven_bounds (n * 2 ^ shift) (2 ^ exponent)
  rw [← hrounded] at hmin hmax
  rw [hword, IsIntegral, units_of_parts (by omega) (.inl (by omega))]
  rcases Nat.lt_or_ge exponent shift with hlt | hge
  · have hsplit : n * 2 ^ shift = n * 2 ^ (shift - exponent) * 2 ^ exponent := by
      rw [mul_assoc, ← pow_add, Nat.sub_add_cancel hlt.le]
    have hexact : rounded = n * 2 ^ (shift - exponent) := by
      rw [hrounded, hsplit]
      exact roundHalfEven_mul _ (Nat.two_pow_pos _)
    rw [hexact, ← hsplit]
    exact Nat.dvd_mul_left _ _
  · exact Dvd.dvd.mul_left (pow_dvd_pow 2 hge) rounded

theorem ofDecimal_of_candidate {word digits : Nat} {point : Int}
    (h : candidate shift word point = some digits) : ofDecimal shift digits point = word := by
  simp only [candidate] at h
  split at h
  · next hround =>
      cases h
      exact hround
  · split at h
    · next hround =>
        cases h
        exact hround
    · split at h
      · next hround =>
          cases h
          exact hround
      · cases h

/-- Every magnitude is an exact decimal. -/
theorem ofDecimal_exact {word : Nat} (hword : word < infinity) :
    ofDecimal shift (units word * 10 ^ shift / 2 ^ shift) (-shift) = word := by
  have hten : (10 : Nat) ^ shift = 5 ^ shift * 2 ^ shift := (Nat.mul_pow 5 2 shift)
  refine ofRatio_of_exact shift hword (Nat.pow_pos (by decide)) ?_
  rw [show (-(shift : Int)).toNat = 0 by omega, show (-(-(shift : Int))).toNat = shift by omega,
    pow_zero, mul_one, hten, ← mul_assoc, Nat.mul_div_cancel _ (Nat.two_pow_pos _)]

theorem firstFrom_spec {candidate : Int → Option Nat} {exact : Nat} (P : Nat → Int → Prop)
    (hexact : P exact (-shift)) (hcandidate : ∀ point digits, candidate point = some digits →
      P digits point) (index : Nat) :
    P (firstFrom shift candidate exact index).1 (firstFrom shift candidate exact index).2 := by
  induction index with
  | zero => exact hexact
  | succ index ih =>
      rw [firstFrom]
      split
      · next digits hdigits => exact hcandidate _ _ hdigits
      · exact ih

theorem firstFrom_nonneg {candidate : Int → Option Nat} {exact : Nat}
    (h : (candidate 0).isSome = true) (above : Nat) :
    0 ≤ (firstFrom shift candidate exact (shift + above)).2 := by
  induction above with
  | zero =>
      obtain ⟨digits, hdigits⟩ := Option.isSome_iff_exists.mp h
      cases shift with
      | zero => simp [firstFrom]
      | succ index =>
          have hzero : ((index : Int) + 1 - (index + 1 : Nat)) = 0 := by omega
          simp only [firstFrom, hzero, hdigits, le_refl]
  | succ above ih =>
      rw [← Nat.add_assoc, firstFrom]
      split
      · next digits hdigits =>
          dsimp only
          omega
      · exact ih

/-- The shortest decimal of a magnitude rounds to it. -/
theorem ofDecimal_shortest {word : Nat} (hword : word < infinity) :
    ofDecimal shift (shortest shift word).1 (shortest shift word).2 = word :=
  firstFrom_spec shift (fun digits point => ofDecimal shift digits point = word)
    (ofDecimal_exact shift hword) (fun _ _ h => ofDecimal_of_candidate shift h) _

theorem candidate_zero {word : Nat} (hword : word < infinity) (h : IsIntegral shift word) :
    (candidate shift word 0).isSome = true := by
  obtain ⟨n, hn⟩ := h
  have hnearest : roundHalfEven (units word * 10 ^ (-0 : Int).toNat)
      (2 ^ shift * 10 ^ (0 : Int).toNat) = n := by
    simp only [neg_zero, Int.toNat_zero, pow_zero, mul_one]
    rw [hn, mul_comm]
    exact roundHalfEven_mul n (Nat.two_pow_pos _)
  have hround : ofDecimal shift n 0 = word := by
    refine ofRatio_of_exact shift hword (by simp) ?_
    simp only [Int.toNat_zero, neg_zero, pow_zero, mul_one]
    rw [hn, mul_comm]
  simp only [candidate, hnearest, hround, if_true, Option.isSome_some]

/-- The shortest decimal has no fraction exactly when the magnitude has none. -/
theorem shortest_nonneg_iff {word : Nat} (hshift : 52 ≤ shift) (hword : word < infinity) :
    0 ≤ (shortest shift word).2 ↔ IsIntegral shift word := by
  constructor
  · intro h
    have hround := ofDecimal_shortest shift hword
    rw [ofDecimal, show (-(shortest shift word).2).toNat = 0 by omega, pow_zero] at hround
    have hfinite := hword
    rw [← hround] at hfinite ⊢
    exact isIntegral_ofRatio shift hshift hfinite
  · exact fun h => firstFrom_nonneg shift (candidate_zero shift hword h) 309

end Telora.Library.Binary64
