import Telora.Library.Sha256

/-!
# The streaming hash context

The context buffers what is left of the last block between updates. Whole blocks of an update are
compressed from where they stand, and the padding is written into the buffer at the end.

A context that absorbed a stream in any pieces holds the hash value of its whole blocks and what
is left of it. The buffer is padded as the standard pads the message.
-/

namespace Telora.Hash

open Library Library.Sha256

def INITIAL : Variables :=
  ⟨0x6a09e667, 0xbb67ae85, 0x3c6ef372, 0xa54ff53a, 0x510e527f, 0x9b05688c, 0x1f83d9ab, 0x5be0cd19⟩

def ROUND : List Word := [
  0x428a2f98, 0x71374491, 0xb5c0fbcf, 0xe9b5dba5, 0x3956c25b, 0x59f111f1, 0x923f82a4, 0xab1c5ed5,
  0xd807aa98, 0x12835b01, 0x243185be, 0x550c7dc3, 0x72be5d74, 0x80deb1fe, 0x9bdc06a7, 0xc19bf174,
  0xe49b69c1, 0xefbe4786, 0x0fc19dc6, 0x240ca1cc, 0x2de92c6f, 0x4a7484aa, 0x5cb0a9dc, 0x76f988da,
  0x983e5152, 0xa831c66d, 0xb00327c8, 0xbf597fc7, 0xc6e00bf3, 0xd5a79147, 0x06ca6351, 0x14292967,
  0x27b70a85, 0x2e1b2138, 0x4d2c6dfc, 0x53380d13, 0x650a7354, 0x766a0abb, 0x81c2c92e, 0x92722c85,
  0xa2bfe8a1, 0xa81a664b, 0xc24b8b70, 0xc76c51a3, 0xd192e819, 0xd6990624, 0xf40e3585, 0x106aa070,
  0x19a4c116, 0x1e376c08, 0x2748774c, 0x34b0bcb5, 0x391c0cb3, 0x4ed8aa4a, 0x5b9cca4f, 0x682e6ff3,
  0x748f82ee, 0x78a5636f, 0x84c87814, 0x8cc70208, 0x90befffa, 0xa4506ceb, 0xbef9a3f7, 0xc67178f2]

/-- The words of a block, in front of zeros. -/
def blockWords (block : List UInt8) : List Word :=
  ((chunks 4 block).map (fun bytes => BitVec.ofNat 32 (ofBytes 0 bytes)) ++
    List.replicate 64 0).take 64

def extendWord (words : List Word) (index : Nat) : List Word :=
  let s0 := (words.getD (index - 15) 0).rotateRight 7 ^^^
    (words.getD (index - 15) 0).rotateRight 18 ^^^ words.getD (index - 15) 0 >>> 3
  let s1 := (words.getD (index - 2) 0).rotateRight 17 ^^^
    (words.getD (index - 2) 0).rotateRight 19 ^^^ words.getD (index - 2) 0 >>> 10
  words.set index (words.getD (index - 16) 0 + s0 + words.getD (index - 7) 0 + s1)

def mixWord (words : List Word) (v : Variables) (index : Nat) : Variables :=
  let choice := (v.e &&& v.f) ^^^ (~~~v.e &&& v.g)
  let majority := (v.a &&& v.b) ^^^ (v.a &&& v.c) ^^^ (v.b &&& v.c)
  let t1 := v.h + (v.e.rotateRight 6 ^^^ v.e.rotateRight 11 ^^^ v.e.rotateRight 25) + choice +
    ROUND.getD index 0 + words.getD index 0
  let t2 := (v.a.rotateRight 2 ^^^ v.a.rotateRight 13 ^^^ v.a.rotateRight 22) + majority
  ⟨t1 + t2, v.a, v.b, v.c, v.d + t1, v.e, v.f, v.g⟩

def compress (state : Variables) (block : List UInt8) : Variables :=
  let words := (List.range' 16 48).foldl extendWord (blockWords block)
  let v := (List.range 64).foldl (mixWord words) state
  ⟨state.a + v.a, state.b + v.b, state.c + v.c, state.d + v.d, state.e + v.e, state.f + v.f,
    state.g + v.g, state.h + v.h⟩

structure Context where
  state : Variables
  block : List UInt8
  blockLen : Nat
  byteLen : UInt64
  deriving DecidableEq, Repr

def Context.default : Context := ⟨INITIAL, List.replicate 64 0, 0, 0⟩

/-- A slice of the block is overwritten. -/
def copyAt (block : List UInt8) (index : Nat) (piece : List UInt8) : List UInt8 :=
  block.take index ++ (piece ++ block.drop (index + piece.length))

/-- A block that is begun takes what it can of the input. -/
def Context.fill (context : Context) (input : List UInt8) : Context × List UInt8 :=
  if context.blockLen ≠ 0 then
    let count := min (64 - context.blockLen) input.length
    let block := copyAt context.block context.blockLen (input.take count)
    let blockLen := context.blockLen + count
    if blockLen = 64 then
      ({ context with state := compress context.state block, block, blockLen := 0 },
        input.drop count)
    else ({ context with block, blockLen }, input.drop count)
  else (context, input)

/-- The whole blocks of an input are compressed, and the rest of it begins a block. -/
def Context.consume (context : Context) (input : List UInt8) : Context :=
  let state := (chunks 64 input).foldl compress context.state
  let remainder := input.length % 64
  if remainder ≠ 0 then
    { context with
      state
      block := copyAt context.block 0 (input.drop (input.length - remainder))
      blockLen := remainder }
  else { context with state }

def Context.update (context : Context) (input : List UInt8) : Context :=
  let (filled, rest) :=
    { context with byteLen := context.byteLen + UInt64.ofNat input.length }.fill input
  filled.consume rest

def Context.finish (context : Context) : List UInt8 :=
  let bitLen := context.byteLen * 8
  let block := context.block.set context.blockLen 0x80
  let blockLen := context.blockLen + 1
  let (state, block) :=
    if 56 < blockLen then
      (compress context.state (copyAt block blockLen (List.replicate (64 - blockLen) 0)),
        List.replicate 64 0)
    else (context.state, copyAt block blockLen (List.replicate (56 - blockLen) 0))
  (compress state (copyAt block 56 (numberBytes 8 bitLen.toNat))).words.flatMap fun word =>
    numberBytes 4 word.toNat

section Compression

theorem ROUND_eq : ROUND = constants := by decide +kernel

theorem INITIAL_eq : INITIAL = initialHash := by decide +kernel

theorem rotateRight_eq {count : Nat} (h : count < 32) (x : Word) :
    x.rotateRight count = rotr count x :=
  BitVec.rotateRight_eq_rotateRightAux_of_lt h

theorem length_blockWords {block : List UInt8} (h : block.length = 64) :
    (blockWords block).length = 64 := by
  rw [blockWords, List.length_take_of_le]
  rw [List.length_append, List.length_map, length_chunks, List.length_replicate, h]
  decide

/-- The first words are those of the message. -/
theorem blockWords_getD {block : List UInt8} (h : block.length = 64) {t : Nat} (ht : t < 16) :
    (blockWords block).getD t 0 = messageWord (bits block) t := by
  have hlength : t < (chunks 4 block).length := by
    rw [length_chunks, h]
    exact ht
  have hchunk : (chunks 4 block)[t] = (block.drop (4 * t)).take 4 := by
    simp only [chunks, List.getElem_map, List.getElem_range]
  have hmessage : ((bits block).drop (32 * t)).take 32 = bits ((block.drop (4 * t)).take 4) := by
    have hdrop : (bits block).drop (32 * t) = bits (block.drop (4 * t)) := by
      rw [← bits_drop, ← Nat.mul_assoc]
    rw [hdrop]
    exact bits_take _ 4
  rw [blockWords, List.getD_eq_getElem?_getD, List.getElem?_take_of_lt (by omega),
    List.getElem?_append_left (by rwa [List.length_map]), List.getElem?_map,
    List.getElem?_eq_getElem hlength, hchunk, messageWord, hmessage, ofBits_bits]
  rfl

/-- The loop writes the message schedule. -/
theorem extendWord_schedule {block : List UInt8} (h : block.length = 64) (count : Nat)
    (hcount : count ≤ 48) :
    ((List.range' 16 count).foldl extendWord (blockWords block)).length = 64 ∧
      ∀ t < 16 + count, ((List.range' 16 count).foldl extendWord (blockWords block)).getD t 0 =
        schedule (bits block) t := by
  induction count with
  | zero =>
      refine ⟨length_blockWords h, fun t ht => ?_⟩
      rw [schedule_of_lt _ ht]
      exact blockWords_getD h ht
  | succ count ih =>
      obtain ⟨hlength, hwords⟩ := ih (Nat.le_of_succ_le hcount)
      rw [List.range'_1_concat, List.foldl_append]
      generalize (List.range' 16 count).foldl extendWord (blockWords block) = words at hlength hwords
      refine ⟨(List.length_set ..).trans hlength, fun t ht => ?_⟩
      change (words.set (16 + count) _).getD t 0 = _
      rw [List.getD_eq_getElem?_getD]
      by_cases hlast : t = 16 + count
      · rw [hlast, List.getElem?_set_self (by omega), Option.getD_some,
          schedule_of_le _ (Nat.le_add_right 16 count), hwords _ (by omega), hwords _ (by omega),
          hwords _ (by omega), hwords _ (by omega), smallSigma0, smallSigma1]
        simp only [rotateRight_eq (show 7 < 32 by decide), rotateRight_eq (show 18 < 32 by decide),
          rotateRight_eq (show 17 < 32 by decide), rotateRight_eq (show 19 < 32 by decide)]
        ac_rfl
      · rw [List.getElem?_set_ne (Ne.symm hlast), ← List.getD_eq_getElem?_getD]
        exact hwords t (by omega)

theorem mixWord_eq {block : List Bool} {words : List Word} {t : Nat}
    (h : words.getD t 0 = schedule block t) (v : Variables) :
    mixWord words v t = hashRound block v t := by
  simp only [mixWord, hashRound, h, ROUND_eq, bigSigma0, bigSigma1, choose, majority,
    rotateRight_eq (show 6 < 32 by decide), rotateRight_eq (show 11 < 32 by decide),
    rotateRight_eq (show 25 < 32 by decide), rotateRight_eq (show 2 < 32 by decide),
    rotateRight_eq (show 13 < 32 by decide), rotateRight_eq (show 22 < 32 by decide)]

theorem compress_eq {block : List UInt8} (h : block.length = 64) (state : Variables) :
    compress state block = hashBlock state (bits block) := by
  obtain ⟨-, hwords⟩ := extendWord_schedule h 48 (Nat.le_refl 48)
  have hrounds : (List.range 64).foldl
      (mixWord ((List.range' 16 48).foldl extendWord (blockWords block))) state =
        (List.range 64).foldl (hashRound (bits block)) state := by
    refine List.foldl_ext _ _ _ fun v t ht => ?_
    exact mixWord_eq (hwords t (List.mem_range.mp ht)) v
  rw [compress, hrounds, hashBlock, Variables.add]
  simp only [BitVec.add_comm]

end Compression

section Updates

/-- The hash value of whole blocks. -/
def hashBytes (whole : List UInt8) : Variables := (chunks 64 whole).foldl compress INITIAL

theorem hashBytes_append {whole : List UInt8} (h : 64 ∣ whole.length) (rest : List UInt8) :
    hashBytes (whole ++ rest) = (chunks 64 rest).foldl compress (hashBytes whole) := by
  rw [hashBytes, chunks_append (by decide) h, List.foldl_append]
  rfl

/-- A state and a buffer behind a stream: the hash value of its whole blocks, and what is left. -/
structure Buffered (state : Variables) (block : List UInt8) (blockLen : Nat)
    (stream : List UInt8) : Prop where
  length : block.length = 64
  lt : blockLen < 64
  split : ∃ whole, 64 ∣ whole.length ∧ state = hashBytes whole ∧
    stream = whole ++ block.take blockLen

/-- What a context is behind a stream. -/
structure Absorbed (context : Context) (stream : List UInt8) : Prop where
  buffered : Buffered context.state context.block context.blockLen stream
  byteLen : context.byteLen = UInt64.ofNat stream.length

theorem length_copyAt {block piece : List UInt8} {index : Nat}
    (h : index + piece.length ≤ block.length) : (copyAt block index piece).length = block.length := by
  rw [copyAt, List.length_append, List.length_append, List.length_drop,
    List.length_take_of_le (by omega)]
  omega

theorem take_copyAt {block piece : List UInt8} {index : Nat}
    (h : index + piece.length ≤ block.length) :
    (copyAt block index piece).take (index + piece.length) = block.take index ++ piece := by
  rw [copyAt, ← List.append_assoc]
  refine List.take_left' ?_
  rw [List.length_append, List.length_take_of_le (by omega)]

theorem Absorbed.default : Absorbed Context.default [] where
  buffered :=
    { length := List.length_replicate
      lt := Nat.zero_lt_succ 63
      split := ⟨[], Nat.dvd_zero 64, rfl, rfl⟩ }
  byteLen := rfl

/-- A begun block takes the start of an input; what it leaves comes to a block not begun. -/
theorem fill_buffered {context : Context} {stream : List UInt8}
    (h : Buffered context.state context.block context.blockLen stream) (input : List UInt8) :
    ∃ taken filled rest, context.fill input = (filled, rest) ∧ input = taken ++ rest ∧
      Buffered filled.state filled.block filled.blockLen (stream ++ taken) ∧
      (filled.blockLen = 0 ∨ rest = []) ∧ filled.byteLen = context.byteLen := by
  rw [Context.fill]
  split
  · next hbegun =>
      obtain ⟨whole, hwhole, hstate, hstream⟩ := h.split
      have hlt := h.lt
      have hlength := h.length
      generalize hcount : min (64 - context.blockLen) input.length = count
      have htaken : (input.take count).length = count := List.length_take_of_le (by omega)
      have hroom : context.blockLen + (input.take count).length ≤ context.block.length := by omega
      have hfront := take_copyAt hroom
      have hblock := length_copyAt hroom
      rw [htaken] at hfront
      rw [hlength] at hblock
      simp only
      split
      · next hfull =>
          rw [hfull, List.take_of_length_le (Nat.le_of_eq hblock)] at hfront
          refine ⟨input.take count, _, _, rfl, (List.take_append_drop count input).symm, ?_,
            .inl rfl, rfl⟩
          refine ⟨hblock, Nat.zero_lt_succ 63, stream ++ input.take count, ?_, ?_, ?_⟩
          · rw [hstream, List.append_assoc, ← hfront, List.length_append, hblock]
            exact Nat.dvd_add hwhole (Nat.dvd_refl 64)
          · have hone := chunks_cons (by decide) hblock []
            rw [List.append_nil] at hone
            rw [hstream, List.append_assoc, ← hfront, hashBytes_append hwhole, hone, hstate]
            rfl
          · exact (List.append_nil _).symm
      · next hpart =>
          have hall : input.length ≤ count := by omega
          refine ⟨input.take count, _, _, rfl, (List.take_append_drop count input).symm, ?_,
            .inr (List.drop_of_length_le hall), rfl⟩
          refine ⟨hblock, by change context.blockLen + count < 64; omega, whole, hwhole, hstate, ?_⟩
          change _ = whole ++ (copyAt _ _ _).take (context.blockLen + count)
          rw [hfront, hstream, List.append_assoc]
  · next hfresh =>
      exact ⟨[], context, input, rfl, rfl, by rwa [List.append_nil], .inl (not_not.mp hfresh), rfl⟩

theorem consume_buffered {context : Context} {stream rest : List UInt8}
    (h : Buffered context.state context.block context.blockLen stream)
    (hfresh : context.blockLen = 0 ∨ rest = []) :
    Buffered (context.consume rest).state (context.consume rest).block
      (context.consume rest).blockLen (stream ++ rest) := by
  rw [Context.consume]
  by_cases hnone : rest = []
  · rw [hnone, List.append_nil]
    exact h
  obtain ⟨whole, hwhole, hstate, hstream⟩ := h.split
  rw [hfresh.resolve_right hnone, List.take_zero, List.append_nil] at hstream
  subst hstream
  have hfront : 64 ∣ (rest.take (rest.length - rest.length % 64)).length := by
    rw [List.length_take_of_le (Nat.sub_le _ _)]
    exact Nat.dvd_sub_mod rest.length
  have hsplit := (List.take_append_drop (rest.length - rest.length % 64) rest).symm
  have hback : (rest.drop (rest.length - rest.length % 64)).length = rest.length % 64 := by
    rw [List.length_drop]
    omega
  have hremainder : rest.length % 64 < 64 := Nat.mod_lt _ (by decide)
  have hshort : (rest.drop (rest.length - rest.length % 64)).length < 64 := by rwa [hback]
  have hvalue : (chunks 64 rest).foldl compress context.state =
      hashBytes (stream ++ rest.take (rest.length - rest.length % 64)) := by
    have hchunks : chunks 64 rest = chunks 64 (rest.take (rest.length - rest.length % 64)) := by
      conv_lhs => rw [hsplit]
      rw [chunks_append (by decide) hfront, chunks_of_lt hshort, List.append_nil]
    rw [hashBytes_append hwhole, ← hchunks, hstate]
  have hdvd : 64 ∣ (stream ++ rest.take (rest.length - rest.length % 64)).length := by
    rw [List.length_append]
    exact Nat.dvd_add hwhole hfront
  split
  · next hpos =>
      have hroom : 0 + (rest.drop (rest.length - rest.length % 64)).length ≤ context.block.length := by
        rw [hback, h.length]
        omega
      refine ⟨(length_copyAt hroom).trans h.length, hremainder, _, hdvd, hvalue, ?_⟩
      have htake := take_copyAt hroom
      rw [hback, Nat.zero_add, List.take_zero, List.nil_append] at htake
      change _ = _ ++ (copyAt _ _ _).take (rest.length % 64)
      rw [htake, List.append_assoc, ← hsplit]
  · next hzero =>
      refine ⟨h.length, h.lt, _, hdvd, hvalue, ?_⟩
      change _ = _ ++ context.block.take context.blockLen
      rw [hfresh.resolve_right hnone, List.take_zero, List.append_nil, not_not.mp hzero,
        Nat.sub_zero, List.take_length]

theorem Absorbed.update {context : Context} {stream : List UInt8} (h : Absorbed context stream)
    (input : List UInt8) : Absorbed (context.update input) (stream ++ input) := by
  obtain ⟨taken, filled, rest, hfill, hinput, hbuffered, hfresh, hbytes⟩ :=
    @fill_buffered { context with byteLen := context.byteLen + UInt64.ofNat input.length } stream
      h.buffered input
  rw [Context.update, hfill]
  refine ⟨?_, ?_⟩
  · rw [hinput, ← List.append_assoc]
    exact consume_buffered hbuffered hfresh
  · have hkept : (filled.consume rest).byteLen = filled.byteLen := by
      rw [Context.consume]
      split <;> rfl
    rw [hkept, hbytes, List.length_append, UInt64.ofNat_add, h.byteLen]

theorem Absorbed.updates {context : Context} (pieces : List (List UInt8)) : ∀ {stream},
    Absorbed context stream →
      Absorbed (pieces.foldl Context.update context) (stream ++ pieces.flatten) := by
  induction pieces generalizing context with
  | nil =>
      intro stream h
      rwa [List.flatten_nil, List.append_nil]
  | cons piece pieces ih =>
      intro stream h
      rw [List.flatten_cons, ← List.append_assoc]
      exact ih (h.update piece)

end Updates

section Padding

/-- The zeros of the padding behind a block of so many bytes. -/
def zeroBytes (blockLen : Nat) : Nat := if blockLen < 56 then 55 - blockLen else 119 - blockLen

/-- What is compressed behind the whole blocks of a message. -/
def finalBytes (blockLen length : Nat) : List UInt8 :=
  0x80 :: (List.replicate (zeroBytes blockLen) 0 ++ numberBytes 8 (8 * length))

/-- The padding of a message of bytes. -/
theorem padded_bits {stream : List UInt8} {count blockLen : Nat} (hlt : blockLen < 64)
    (hlength : stream.length = 64 * count + blockLen) :
    padded (bits stream) = bits (stream ++ finalBytes blockLen stream.length) := by
  have hzeros : (959 - 8 * stream.length % 512) % 512 = 7 + 8 * zeroBytes blockLen := by
    rw [zeroBytes]
    split <;> omega
  have hfirst : bits [0x80] = true :: List.replicate 7 false := by decide
  have hfinal : bits (finalBytes blockLen stream.length) =
      bits [0x80] ++ (bits (List.replicate (zeroBytes blockLen) 0) ++
        bits (numberBytes 8 (8 * stream.length))) := by
    rw [← bits_append, ← bits_append]
    rfl
  rw [padded, padding, length_bits, hzeros, bits_append, hfinal, hfirst, bits_replicate_zero,
    bits_numberBytes, List.replicate_add]
  simp only [List.cons_append, List.append_assoc]

/-- The hash value of the blocks of some bytes, as the standard computes it. -/
theorem hashBytes_eq (bytes : List UInt8) :
    hashBytes bytes = (chunks 512 (bits bytes)).foldl hashBlock initialHash := by
  have hchunks : chunks 512 (bits bytes) = (chunks 64 bytes).map bits := chunks_bits 64 bytes
  rw [hchunks, List.foldl_map, hashBytes, INITIAL_eq]
  exact List.foldl_ext _ _ _ fun state block hmem => compress_eq (length_of_mem_chunks hmem) state

theorem copyAt_end {block piece : List UInt8} {index : Nat}
    (h : index + piece.length = block.length) :
    copyAt block index piece = block.take index ++ piece := by
  rw [copyAt, h, List.drop_length, List.append_nil]

theorem take_set_succ {block : List UInt8} {index : Nat} (h : index < block.length)
    (byte : UInt8) : (block.set index byte).take (index + 1) = block.take index ++ [byte] := by
  have hlength : (block.take index).length = index := List.length_take_of_le (Nat.le_of_lt h)
  rw [List.set_eq_take_append_cons_drop, if_pos h, ← List.singleton_append, ← List.append_assoc]
  refine List.take_left' ?_
  rw [List.length_append, hlength, List.length_singleton]

theorem bits_words (words : List Word) :
    bits (words.flatMap fun word => numberBytes 4 word.toNat) =
      words.flatMap fun word => numberBits 32 word.toNat := by
  induction words with
  | nil => rfl
  | cons word words ih => rw [List.flatMap_cons, bits_append, bits_numberBytes, ih, List.flatMap_cons]

/-- What is left of a message is compressed with its padding. -/
theorem finish_bytes {context : Context} {whole : List UInt8}
    (h : context.block.length = 64) (hlt : context.blockLen < 64) (hwhole : 64 ∣ whole.length)
    (hstate : context.state = hashBytes whole) {length : Nat}
    (hlength : (context.byteLen * 8).toNat = 8 * length) :
    context.finish = (hashBytes (whole ++ (context.block.take context.blockLen ++
      finalBytes context.blockLen length))).words.flatMap fun word => numberBytes 4 word.toNat := by
  have hset : (context.block.set context.blockLen 0x80).length = 64 :=
    (List.length_set ..).trans h
  have hfront := take_set_succ (show context.blockLen < context.block.length by omega) 0x80
  have hsize : ∀ n, (List.replicate n (0 : UInt8)).length = n := fun n => List.length_replicate
  have htail : (context.block.take context.blockLen).length = context.blockLen :=
    List.length_take_of_le (by omega)
  have hone : ∀ block : List UInt8, block.length = 64 → chunks 64 block = [block] := by
    intro block hblock
    have := chunks_cons (by decide) hblock []
    rwa [List.append_nil] at this
  rw [Context.finish, hashBytes_append hwhole, ← hstate, finalBytes, zeroBytes, hlength]
  by_cases hlong : 56 < context.blockLen + 1
  -- the padding spills into a block of its own
  · have hfirst : copyAt (context.block.set context.blockLen 0x80) (context.blockLen + 1)
        (List.replicate (64 - (context.blockLen + 1)) 0) =
          context.block.take context.blockLen ++
            0x80 :: List.replicate (63 - context.blockLen) 0 := by
      have hcount : 64 - (context.blockLen + 1) = 63 - context.blockLen := by omega
      rw [copyAt_end (by rw [hsize, hset]; omega), hfront, List.append_assoc, hcount]
      rfl
    have hsecond : copyAt (List.replicate 64 0) 56 (numberBytes 8 (8 * length)) =
        List.replicate 56 0 ++ numberBytes 8 (8 * length) :=
      copyAt_end (by rw [length_numberBytes, hsize])
    have hzeros : 119 - context.blockLen = (63 - context.blockLen) + 56 := by omega
    have hblock : (context.block.take context.blockLen ++
        0x80 :: List.replicate (63 - context.blockLen) 0).length = 64 := by
      rw [List.length_append, htail, List.length_cons, hsize]
      omega
    have hlast : (List.replicate 56 0 ++ numberBytes 8 (8 * length)).length = 64 := by
      rw [List.length_append, hsize, length_numberBytes]
    have hsplit : context.block.take context.blockLen ++
        0x80 :: (List.replicate (119 - context.blockLen) 0 ++ numberBytes 8 (8 * length)) =
          (context.block.take context.blockLen ++
            0x80 :: List.replicate (63 - context.blockLen) 0) ++
          (List.replicate 56 0 ++ numberBytes 8 (8 * length)) := by
      rw [hzeros, List.replicate_add]
      simp only [List.cons_append, List.append_assoc]
    have hspill : ¬context.blockLen < 56 := by omega
    rw [if_neg hspill, hsplit, chunks_cons (by decide) hblock, hone _ hlast]
    simp only [if_pos hlong, hfirst, hsecond]
    rfl
  · have hfirst : copyAt (context.block.set context.blockLen 0x80) (context.blockLen + 1)
        (List.replicate (56 - (context.blockLen + 1)) 0) =
          context.block.take context.blockLen ++
            (0x80 :: List.replicate (55 - context.blockLen) 0 ++
              (context.block.set context.blockLen 0x80).drop 56) := by
      have hcount : 56 - (context.blockLen + 1) = 55 - context.blockLen := by omega
      have hend : context.blockLen + 1 + (55 - context.blockLen) = 56 := by omega
      rw [copyAt, hfront, hcount, hsize, hend, List.append_assoc]
      rfl
    have hfront' : (context.block.take context.blockLen ++
        0x80 :: List.replicate (55 - context.blockLen) 0).length = 56 := by
      rw [List.length_append, htail, List.length_cons, hsize]
      omega
    have hsecond : copyAt (context.block.take context.blockLen ++
        (0x80 :: List.replicate (55 - context.blockLen) 0 ++
          (context.block.set context.blockLen 0x80).drop 56)) 56 (numberBytes 8 (8 * length)) =
        context.block.take context.blockLen ++
          0x80 :: (List.replicate (55 - context.blockLen) 0 ++ numberBytes 8 (8 * length)) := by
      rw [← List.append_assoc, copyAt_end, List.take_left' hfront', List.append_assoc]
      · rfl
      · rw [length_numberBytes, List.length_append, hfront', List.length_drop, hset]
    have hblock : (context.block.take context.blockLen ++ 0x80 ::
        (List.replicate (55 - context.blockLen) 0 ++ numberBytes 8 (8 * length))).length = 64 := by
      rw [List.length_append, htail, List.length_cons, List.length_append, hsize,
        length_numberBytes]
      omega
    have hfits : context.blockLen < 56 := by omega
    rw [if_pos hfits, hone _ hblock]
    simp only [if_neg hlong, hfirst, hsecond]
    rfl

/-- The digest of what a context absorbed. -/
theorem Absorbed.finish {context : Context} {stream : List UInt8} (h : Absorbed context stream)
    (hfits : 8 * stream.length < 2 ^ 64) : bits context.finish = digest (bits stream) := by
  obtain ⟨⟨hblock, hlt, whole, hwhole, hstate, hstream⟩, hbytes⟩ := h
  have hlength : (context.byteLen * 8).toNat = 8 * stream.length := by
    rw [hbytes, UInt64.toNat_mul, UInt64.toNat_ofNat']
    change stream.length % 2 ^ 64 * 8 % 2 ^ 64 = _
    omega
  have htail : (context.block.take context.blockLen).length = context.blockLen :=
    List.length_take_of_le (by omega)
  obtain ⟨count, hcount⟩ := hwhole
  have htotal : stream.length = 64 * count + context.blockLen := by
    rw [hstream, List.length_append, htail, hcount]
  rw [finish_bytes hblock hlt ⟨count, hcount⟩ hstate hlength, digest, padded_bits hlt htotal,
    ← hashBytes_eq, hstream, List.append_assoc]
  exact bits_words _

/-- A message absorbed in any pieces has the digest of the whole message. -/
theorem finish_updates (pieces : List (List UInt8)) (h : 8 * pieces.flatten.length < 2 ^ 64) :
    bits (pieces.foldl Context.update Context.default).finish = digest (bits pieces.flatten) :=
  (Absorbed.default.updates pieces).finish h

/-- Empty pieces, and a piece that spans a block boundary and leaves 55 bytes. -/
theorem finish_updates_spanning :
    bits ([[], [1, 2, 3], List.replicate 116 7, []].foldl Context.update Context.default).finish =
      digest (bits [[], [1, 2, 3], List.replicate 116 7, []].flatten) :=
  finish_updates _ (by decide)

end Padding

end Telora.Hash
