import Mathlib.Data.List.Basic
import Mathlib.Data.Nat.Bitwise
import Mathlib.Tactic.Ring

/-!
# Bits, bytes and chunks

Numbers written with the highest bit or byte first, and lists cut into chunks of one size.

The standard in its own terms: a message is a list of bits that is padded to blocks of 512 bits,
and the constants are the first bits of the fractional parts of the roots of the first primes.
-/

namespace Telora.Library

section Chunks
variable {α β : Type}

/-- The whole chunks of a list, in their order. -/
def chunks (size : Nat) (values : List α) : List (List α) :=
  (List.range (values.length / size)).map fun i => (values.drop (size * i)).take size

theorem length_chunks (size : Nat) (values : List α) :
    (chunks size values).length = values.length / size := by
  rw [chunks, List.length_map, List.length_range]

theorem length_of_mem_chunks {size : Nat} {values piece : List α}
    (h : piece ∈ chunks size values) : piece.length = size := by
  obtain ⟨i, hi, rfl⟩ := List.mem_map.mp h
  have hlt : i < values.length / size := List.mem_range.mp hi
  have hroom : size * (i + 1) ≤ values.length :=
    Nat.le_trans (Nat.mul_le_mul_left size hlt) (Nat.mul_div_le _ _)
  rw [Nat.mul_succ] at hroom
  rw [List.length_take_of_le]
  rw [List.length_drop]
  omega

theorem chunks_of_lt {size : Nat} {values : List α} (h : values.length < size) :
    chunks size values = [] := by
  rw [chunks, Nat.div_eq_of_lt h]
  rfl

theorem chunks_cons {size : Nat} (hpos : 0 < size) {first : List α} (h : first.length = size)
    (rest : List α) : chunks size (first ++ rest) = first :: chunks size rest := by
  have hcount : (first ++ rest).length / size = rest.length / size + 1 := by
    rw [List.length_append, h, Nat.add_div_left _ hpos]
  rw [chunks, hcount, List.range_succ_eq_map, List.map_cons, List.map_map]
  refine congrArg₂ List.cons ?_ (List.map_congr_left fun i _ => ?_)
  · rw [Nat.mul_zero, List.drop_zero, ← h, List.take_left]
  · change ((first ++ rest).drop (size * (i + 1))).take size = _
    rw [Nat.mul_succ, Nat.add_comm, ← List.drop_drop, ← h, List.drop_left]

/-- Whole chunks stay what they are with more behind them. -/
theorem chunks_append {size : Nat} (hpos : 0 < size) {whole : List α} (h : size ∣ whole.length)
    (rest : List α) : chunks size (whole ++ rest) = chunks size whole ++ chunks size rest := by
  obtain ⟨count, hcount⟩ := h
  induction count generalizing whole with
  | zero =>
      rw [Nat.mul_zero, List.length_eq_zero_iff] at hcount
      have hnone : chunks size ([] : List α) = [] := chunks_of_lt hpos
      rw [hcount, hnone]
      rfl
  | succ count ih =>
      rw [Nat.mul_succ] at hcount
      have hfirst : (whole.take size).length = size := List.length_take_of_le (by omega)
      have hrest : (whole.drop size).length = size * count := by
        rw [List.length_drop]
        omega
      calc chunks size (whole ++ rest)
          = chunks size (whole.take size ++ (whole.drop size ++ rest)) := by
            rw [← List.append_assoc, List.take_append_drop]
        _ = whole.take size :: (chunks size (whole.drop size) ++ chunks size rest) := by
            rw [chunks_cons hpos hfirst, ih hrest]
        _ = chunks size (whole.take size ++ whole.drop size) ++ chunks size rest := by
            rw [chunks_cons hpos hfirst]
            rfl
        _ = chunks size whole ++ chunks size rest := by rw [List.take_append_drop]

end Chunks

section Bits

/-- The lowest bits of a number, the highest of them first. -/
def numberBits : Nat → Nat → List Bool
  | 0, _ => []
  | count + 1, n => n.testBit count :: numberBits count n

/-- The lowest bytes of a number, the highest of them first. -/
def numberBytes : Nat → Nat → List UInt8
  | 0, _ => []
  | count + 1, n => UInt8.ofNat (n >>> (8 * count)) :: numberBytes count n

/-- The bits of some bytes. -/
def bits (bytes : List UInt8) : List Bool := bytes.flatMap fun byte => numberBits 8 byte.toNat

/-- The number that bits denote behind those of another number. -/
def ofBits (n : Nat) (text : List Bool) : Nat := text.foldl (fun n bit => 2 * n + bit.toNat) n

/-- The number that bytes denote behind those of another number. -/
def ofBytes (n : Nat) (bytes : List UInt8) : Nat :=
  bytes.foldl (fun n byte => 256 * n + byte.toNat) n

@[simp] theorem length_numberBits (count n : Nat) : (numberBits count n).length = count := by
  induction count with
  | zero => rfl
  | succ count ih => exact congrArg Nat.succ ih

@[simp] theorem length_numberBytes (count n : Nat) : (numberBytes count n).length = count := by
  induction count with
  | zero => rfl
  | succ count ih => exact congrArg Nat.succ ih

theorem numberBits_add (more count n : Nat) :
    numberBits (more + count) n = numberBits more (n >>> count) ++ numberBits count n := by
  induction more with
  | zero => rw [Nat.zero_add]; rfl
  | succ more ih =>
      rw [Nat.succ_add, numberBits, numberBits, ih, Nat.testBit_shiftRight, Nat.add_comm count]
      rfl

theorem numberBits_mod {count width : Nat} (h : count ≤ width) (n : Nat) :
    numberBits count (n % 2 ^ width) = numberBits count n := by
  induction count with
  | zero => rfl
  | succ count ih =>
      rw [numberBits, numberBits, ih (Nat.le_of_succ_le h), Nat.testBit_mod_two_pow,
        decide_eq_true (Nat.lt_of_succ_le h), Bool.true_and]

theorem bits_append (bytes rest : List UInt8) : bits (bytes ++ rest) = bits bytes ++ bits rest :=
  List.flatMap_append

theorem bits_cons (byte : UInt8) (rest : List UInt8) :
    bits (byte :: rest) = numberBits 8 byte.toNat ++ bits rest := rfl

@[simp] theorem length_bits (bytes : List UInt8) : (bits bytes).length = 8 * bytes.length := by
  induction bytes with
  | nil => rfl
  | cons byte bytes ih =>
      rw [bits_cons, List.length_append, ih, length_numberBits, List.length_cons]
      omega

theorem bits_replicate_zero (count : Nat) :
    bits (List.replicate count 0) = List.replicate (8 * count) false := by
  induction count with
  | zero => rfl
  | succ count ih =>
      rw [List.replicate_succ, bits_cons, ih, Nat.mul_succ, Nat.add_comm, List.replicate_add]
      rfl

theorem bits_numberBytes (count n : Nat) : bits (numberBytes count n) = numberBits (8 * count) n := by
  induction count with
  | zero => rfl
  | succ count ih =>
      have hbyte : (UInt8.ofNat (n >>> (8 * count))).toNat = (n >>> (8 * count)) % 2 ^ 8 :=
        UInt8.toNat_ofNat'
      rw [numberBytes, bits_cons, ih, hbyte, numberBits_mod (Nat.le_refl 8), Nat.mul_succ,
        Nat.add_comm, numberBits_add]

theorem bits_drop (bytes : List UInt8) : ∀ count,
    (bits bytes).drop (8 * count) = bits (bytes.drop count) := by
  induction bytes with
  | nil => exact fun count => by rw [List.drop_nil]; exact List.drop_nil
  | cons byte bytes ih =>
      intro count
      cases count with
      | zero => rfl
      | succ count =>
          rw [bits_cons, Nat.mul_succ, Nat.add_comm, ← List.drop_drop,
            List.drop_left' (length_numberBits 8 _), ih, List.drop_succ_cons]

theorem bits_take (bytes : List UInt8) : ∀ count,
    (bits bytes).take (8 * count) = bits (bytes.take count) := by
  induction bytes with
  | nil => exact fun count => by rw [List.take_nil]; exact List.take_nil
  | cons byte bytes ih =>
      intro count
      cases count with
      | zero => rfl
      | succ count =>
          rw [bits_cons, Nat.mul_succ, Nat.add_comm, List.take_add,
            List.take_left' (length_numberBits 8 _), List.drop_left' (length_numberBits 8 _), ih,
            List.take_succ_cons, bits_cons]

/-- The chunks of the bits of some bytes. -/
theorem chunks_bits (size : Nat) (bytes : List UInt8) :
    chunks (8 * size) (bits bytes) = (chunks size bytes).map bits := by
  rw [chunks, chunks, length_bits, Nat.mul_div_mul_left _ _ (by decide), List.map_map]
  refine List.map_congr_left fun i _ => ?_
  change _ = bits ((bytes.drop (size * i)).take size)
  rw [Nat.mul_assoc, bits_drop, bits_take]

theorem ofBits_append (n : Nat) (text rest : List Bool) :
    ofBits n (text ++ rest) = ofBits (ofBits n text) rest := List.foldl_append

theorem ofBits_numberBits (count n m : Nat) :
    ofBits n (numberBits count m) = n * 2 ^ count + m % 2 ^ count := by
  induction count generalizing n with
  | zero =>
      rw [Nat.pow_zero, Nat.mod_one, Nat.mul_one]
      rfl
  | succ count ih =>
      change ofBits (2 * n + (m.testBit count).toNat) (numberBits count m) = _
      rw [ih, Nat.mod_pow_succ, Nat.toNat_testBit, Nat.add_mul, Nat.pow_succ]
      ring

/-- Bytes and their bits denote the same number. -/
theorem ofBits_bits (bytes : List UInt8) : ∀ n, ofBits n (bits bytes) = ofBytes n bytes := by
  induction bytes with
  | nil => exact fun n => rfl
  | cons byte bytes ih =>
      intro n
      have hbyte : byte.toNat % 2 ^ 8 = byte.toNat := Nat.mod_eq_of_lt byte.toNat_lt
      rw [bits_cons, ofBits_append, ofBits_numberBits, ih, hbyte, Nat.mul_comm n]
      rfl

/-- The written bytes determine the number up to its higher bits. -/
theorem numberBytes_inj {count n m : Nat} (h : numberBytes count n = numberBytes count m) :
    n % 2 ^ (8 * count) = m % 2 ^ (8 * count) := by
  have hvalue : ∀ k, ofBytes 0 (numberBytes count k) = k % 2 ^ (8 * count) := by
    intro k
    rw [← ofBits_bits, bits_numberBytes, ofBits_numberBits, Nat.zero_mul, Nat.zero_add]
  rw [← hvalue n, ← hvalue m, h]

end Bits

end Telora.Library

namespace Telora.Library.Sha256

abbrev Word := BitVec 32

def rotr (count : Nat) (x : Word) : Word := x >>> count ||| x <<< (32 - count)

def choose (x y z : Word) : Word := x &&& y ^^^ ~~~x &&& z

def majority (x y z : Word) : Word := x &&& y ^^^ x &&& z ^^^ y &&& z

def bigSigma0 (x : Word) : Word := rotr 2 x ^^^ rotr 13 x ^^^ rotr 22 x

def bigSigma1 (x : Word) : Word := rotr 6 x ^^^ rotr 11 x ^^^ rotr 25 x

def smallSigma0 (x : Word) : Word := rotr 7 x ^^^ rotr 18 x ^^^ x >>> 3

def smallSigma1 (x : Word) : Word := rotr 17 x ^^^ rotr 19 x ^^^ x >>> 10

/-- The primes below a number. -/
def primesBelow (limit : Nat) : List Nat :=
  (List.range limit).filter fun n => 1 < n && (List.range n).all fun d => d < 2 || n % d ≠ 0

/-- The greatest number of so many bits whose power is at most a number. -/
def root (exponent bits n : Nat) : Nat :=
  (List.range bits).foldr
    (fun bit found => if (found + 2 ^ bit) ^ exponent ≤ n then found + 2 ^ bit else found) 0

/-- The first 32 bits of the fractional part of a root of a number below 1000. -/
def rootFraction (exponent n : Nat) : Word :=
  BitVec.ofNat 32 (root exponent 37 (n * 2 ^ (32 * exponent)))

/-- The constants of the rounds, from the cube roots of the first 64 primes. -/
def constants : List Word := (primesBelow 312).map (rootFraction 3)

/-- The working variables, and the words of a hash value. -/
structure Variables where
  a : Word
  b : Word
  c : Word
  d : Word
  e : Word
  f : Word
  g : Word
  h : Word
  deriving DecidableEq, Repr

def Variables.words (v : Variables) : List Word := [v.a, v.b, v.c, v.d, v.e, v.f, v.g, v.h]

/-- The initial hash value, from the square roots of the first 8 primes. -/
def initialHash : Variables :=
  ⟨rootFraction 2 2, rootFraction 2 3, rootFraction 2 5, rootFraction 2 7, rootFraction 2 11,
    rootFraction 2 13, rootFraction 2 17, rootFraction 2 19⟩

/-- A bit, and the least number of zeros such that 64 bits are left of the last block. -/
def padding (length : Nat) : List Bool :=
  true :: (List.replicate ((959 - length % 512) % 512) false ++ numberBits 64 length)

def padded (message : List Bool) : List Bool := message ++ padding message.length

def messageWord (block : List Bool) (t : Nat) : Word :=
  BitVec.ofNat 32 (ofBits 0 ((block.drop (32 * t)).take 32))

/-- The message schedule of a block. -/
def schedule (block : List Bool) (t : Nat) : Word :=
  if t < 16 then messageWord block t
  else
    smallSigma1 (schedule block (t - 2)) + schedule block (t - 7) +
      smallSigma0 (schedule block (t - 15)) + schedule block (t - 16)
termination_by t

def hashRound (block : List Bool) (v : Variables) (t : Nat) : Variables :=
  let t1 := v.h + bigSigma1 v.e + choose v.e v.f v.g + constants.getD t 0 + schedule block t
  let t2 := bigSigma0 v.a + majority v.a v.b v.c
  ⟨t1 + t2, v.a, v.b, v.c, v.d + t1, v.e, v.f, v.g⟩

def Variables.add (v w : Variables) : Variables :=
  ⟨v.a + w.a, v.b + w.b, v.c + w.c, v.d + w.d, v.e + w.e, v.f + w.f, v.g + w.g, v.h + w.h⟩

/-- The next hash value. -/
def hashBlock (hash : Variables) (block : List Bool) : Variables :=
  ((List.range 64).foldl (hashRound block) hash).add hash

/-- The message digest of a message. -/
def digest (message : List Bool) : List Bool :=
  ((chunks 512 (padded message)).foldl hashBlock initialHash).words.flatMap fun word =>
    numberBits 32 word.toNat

theorem schedule_of_lt (block : List Bool) {t : Nat} (h : t < 16) :
    schedule block t = messageWord block t := by
  rw [schedule, if_pos h]

theorem schedule_of_le (block : List Bool) {t : Nat} (h : 16 ≤ t) :
    schedule block t = smallSigma1 (schedule block (t - 2)) + schedule block (t - 7) +
      smallSigma0 (schedule block (t - 15)) + schedule block (t - 16) := by
  rw [schedule, if_neg (Nat.not_lt.mpr h)]

end Telora.Library.Sha256
