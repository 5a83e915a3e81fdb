import Mathlib.Data.UInt

/-!
# Base 64

The encoder and the decoder of `libb64` take their input in pieces of any length: what is pending
between two of them is in their states.  Their names go without `base64_` here.
-/

namespace Base64

open List

/-! ## Input in pieces -/

section

variable {S α β : Type} (step : S → α → S × List β)

/-- What a state comes to, and what is put out on the way. -/
def feed (s : S) : List α → S × List β
  | [] => (s, [])
  | x :: l => ((feed (step s x).1 l).1, (step s x).2 ++ (feed (step s x).1 l).2)

variable {step} {s : S} {l m : List α}

theorem feed_append : feed step s (l ++ m) = ((feed step (feed step s l).1 m).1,
    (feed step s l).2 ++ (feed step (feed step s l).1 m).2) := by
  induction l generalizing s with
  | nil => rfl
  | cons x l ih => simp only [cons_append, feed, ih, append_assoc]

/-- **Where the input is cut does not matter.** -/
theorem feed_flatten {pieces : List (List α)} :
    feed (feed step) s pieces = feed step s pieces.flatten := by
  induction pieces generalizing s with
  | nil => rfl
  | cons l pieces ih => rw [flatten_cons, feed_append, feed, ih]

end

/-! ## The encoder -/

def BASE64_CHARS_PER_LINE : Nat := 72

inductive EncodeStep where
  | A | B | C

structure EncodeState where
  step : EncodeStep
  result : UInt8
  stepcount : Nat
  stepsnewline : Int

def initEncodestate : EncodeState := ⟨.A, 0, 0, BASE64_CHARS_PER_LINE⟩

def initEncodestateNonewlines : EncodeState := { initEncodestate with stepsnewline := -1 }

def encodeValue (n : UInt8) : UInt8 :=
  if n < 26 then n + 65
  else if n < 26 + 26 then n - 26 + 97
  else if n < 26 + 26 + 10 then n - 26 - 26 + 48
  else if n = 62 then 43
  else 47

/-- One character in `base64_encode_block`. -/
def encodeChar (s : EncodeState) (fragment : UInt8) : EncodeState × List UInt8 :=
  match s.step with
  | .A => ({ s with step := .B, result := (fragment &&& 0x003) <<< 4 },
      [encodeValue ((fragment &&& 0x0fc) >>> 2)])
  | .B => ({ s with step := .C, result := (fragment &&& 0x00f) <<< 2 },
      [encodeValue (s.result ||| (fragment &&& 0x0f0) >>> 4)])
  | .C =>
    let code := [encodeValue (s.result ||| (fragment &&& 0x0c0) >>> 6),
      encodeValue (fragment &&& 0x03f)]
    let s := { s with step := .A, result := fragment &&& 0x03f, stepcount := s.stepcount + 1 }
    if s.stepcount = BASE64_CHARS_PER_LINE / 4 ∧ s.stepsnewline > 0 then
      ({ s with stepcount := 0 }, code ++ [10])
    else (s, code)

def encodeBlock : EncodeState → List UInt8 → EncodeState × List UInt8 := feed encodeChar

def encodeBlockend (s : EncodeState) : List UInt8 :=
  match s.step with
  | .A => []
  | .B => [encodeValue s.result, 61, 61]
  | .C => [encodeValue s.result, 61]

/-! ## The decoder -/

/-- The table of `base64_decode_value`. -/
def decoding : List Int8 := [62, -1, -1, -1, 63, 52, 53, 54, 55, 56, 57, 58, 59, 60, 61, -1, -1, -1,
  -2, -1, -1, -1, 0, 1, 2, 3, 4, 5, 6, 7, 8, 9, 10, 11, 12, 13, 14, 15, 16, 17, 18, 19, 20, 21, 22,
  23, 24, 25, -1, -1, -1, -1, -1, -1, 26, 27, 28, 29, 30, 31, 32, 33, 34, 35, 36, 37, 38, 39, 40,
  41, 42, 43, 44, 45, 46, 47, 48, 49, 50, 51]

/-- `base64_decodestate`: at `step_a` nothing is pending. -/
inductive DecodeState where
  | a
  | b (plainchar : UInt8)
  | c (plainchar : UInt8)
  | d (plainchar : UInt8)

/-- The check lets one more place pass than the table has: there `behind` is read. -/
def decodeValue (behind : Int8) (value_in : UInt8) : Int8 :=
  let value_in := value_in.toInt8 - 43
  if value_in < 0 ∨ value_in > 80 then -1 else decoding[value_in.toNatClampNeg]?.getD behind

/-- One digit in `base64_decode_block`. -/
def decodeDigit (fragment : UInt8) : DecodeState → DecodeState × List UInt8
  | .a => (.b ((fragment &&& 0x03f) <<< 2), [])
  | .b plainchar => (.c ((fragment &&& 0x00f) <<< 4), [plainchar ||| (fragment &&& 0x030) >>> 4])
  | .c plainchar => (.d ((fragment &&& 0x003) <<< 6), [plainchar ||| (fragment &&& 0x03c) >>> 2])
  | .d plainchar => (.a, [plainchar ||| fragment &&& 0x03f])

variable (behind : Int8)

def decodeChar (s : DecodeState) (code : UInt8) : DecodeState × List UInt8 :=
  let fragment := decodeValue behind code
  if fragment < 0 then (s, []) else decodeDigit fragment.toUInt8 s

def decodeBlock : DecodeState → List UInt8 → DecodeState × List UInt8 := feed (decodeChar behind)

/-! ## There and back -/

variable {behind} {e : EncodeState} {d : DecodeState} {held : List UInt8} {x y : UInt8}

theorem bits_eq (h : ∀ i ∈ [0, 1, 2, 3, 4, 5, 6, 7],
    x.toBitVec.getLsbD i = y.toBitVec.getLsbD i) : x = y :=
  UInt8.eq_of_toBitVec_eq (BitVec.eq_of_getLsbD_eq fun i hi => h i (by simp; omega))

/-- Every digit is in the table. -/
theorem decodeChar_digit (hx : x &&& 0x03f = x) :
    decodeChar behind d (encodeValue x) = decodeDigit x d := by
  have hall : ∀ n < 64, ¬(UInt8.ofNat n).toInt8 < 0 ∧
      ¬((encodeValue (.ofNat n)).toInt8 - 43 < 0 ∨ (encodeValue (.ofNat n)).toInt8 - 43 > 80) ∧
      decoding[((encodeValue (.ofNat n)).toInt8 - 43).toNatClampNeg]? =
        some (UInt8.ofNat n).toInt8 := by
    decide +kernel
  have hle : x.toNat &&& 63 ≤ 63 := Nat.and_le_right
  have hnat : x.toNat &&& 63 = x.toNat := congrArg UInt8.toNat hx
  obtain ⟨hpos, hin, hread⟩ := hall x.toNat (by omega)
  rw [UInt8.ofNat_toNat] at hpos hin hread
  simp only [decodeChar, decodeValue, if_neg hin, hread, Option.getD_some, if_neg hpos,
    UInt8.toUInt8_toInt8]

theorem decodeBlock_cons {d' : DecodeState} {out code : List UInt8} (hx : x &&& 0x03f = x)
    (h : decodeDigit x d = (d', out)) : decodeBlock behind d (encodeValue x :: code) =
      ((decodeBlock behind d' code).1, out ++ (decodeBlock behind d' code).2) := by
  simp only [decodeBlock, feed, decodeChar_digit hx, h]

/-- Behind the code of the encoder the decoder has still to put out what is held. -/
inductive Tracks : EncodeState → DecodeState → List UInt8 → Prop
  | A {r n l} : Tracks ⟨.A, r, n, l⟩ .a []
  | B {n l} (x : UInt8) : Tracks ⟨.B, (x &&& 0x003) <<< 4, n, l⟩ (.b (x &&& 0x0fc)) [x]
  | C {n l} (x : UInt8) : Tracks ⟨.C, (x &&& 0x00f) <<< 2, n, l⟩ (.c (x &&& 0x0f0)) [x]

theorem decodeDigit_a : decodeDigit ((x &&& 0x0fc) >>> 2) .a = (.b (x &&& 0x0fc), []) :=
  congrArg (fun p => (DecodeState.b p, [])) (bits_eq (by simp))

theorem decodeDigit_b :
    decodeDigit ((x &&& 0x003) <<< 4 ||| (y &&& 0x0f0) >>> 4) (.b (x &&& 0x0fc)) =
      (.c (y &&& 0x0f0), [x]) :=
  congrArg₂ (fun p q => (DecodeState.c p, [q])) (bits_eq (by simp)) (bits_eq (by simp))

theorem decodeDigit_c :
    decodeDigit ((x &&& 0x00f) <<< 2 ||| (y &&& 0x0c0) >>> 6) (.c (x &&& 0x0f0)) =
      (.d (y &&& 0x0c0), [x]) :=
  congrArg₂ (fun p q => (DecodeState.d p, [q])) (bits_eq (by simp)) (bits_eq (by simp))

theorem decodeDigit_d : decodeDigit (x &&& 0x03f) (.d (x &&& 0x0c0)) = (.a, [x]) :=
  congrArg (fun q => (DecodeState.a, [q])) (bits_eq (by simp))

theorem Tracks.step (h : Tracks e d held) (x : UInt8) : ∃ d' out held',
    decodeBlock behind d (encodeChar e x).2 = (d', out) ∧ Tracks (encodeChar e x).1 d' held' ∧
      held ++ [x] = out ++ held' := by
  cases h with
  | A => exact ⟨_, _, [x], decodeBlock_cons (bits_eq (by simp)) decodeDigit_a, .B x, rfl⟩
  | B y => exact ⟨_, _, [x], decodeBlock_cons (bits_eq (by simp)) decodeDigit_b, .C x, rfl⟩
  | C y =>
    have hdigits : ∀ code, decodeBlock behind (.c (y &&& 0x0f0))
        (encodeValue ((y &&& 0x00f) <<< 2 ||| (x &&& 0x0c0) >>> 6) :: encodeValue (x &&& 0x03f) ::
          code) = ((decodeBlock behind .a code).1, y :: x :: (decodeBlock behind .a code).2) := by
      intro code
      rw [decodeBlock_cons (bits_eq (by simp)) decodeDigit_c,
        decodeBlock_cons (bits_eq (by simp)) decodeDigit_d]
      rfl
    rw [encodeChar]
    dsimp only
    split
    · exact ⟨.a, [y, x], [], hdigits [10], .A, rfl⟩
    · exact ⟨.a, [y, x], [], hdigits [], .A, rfl⟩

/-- **The decoder keeps up** with the encoder. -/
theorem Tracks.run (h : Tracks e d held) (l : List UInt8) : ∃ d' out held',
    decodeBlock behind d (encodeBlock e l).2 = (d', out) ∧ Tracks (encodeBlock e l).1 d' held' ∧
      held ++ l = out ++ held' := by
  induction l generalizing e d held with
  | nil => exact ⟨d, [], held, rfl, h, append_nil held⟩
  | cons x l ih =>
    obtain ⟨d₁, out₁, held₁, hdec₁, ht₁, heq₁⟩ := h.step x
    obtain ⟨d₂, out₂, held₂, hdec₂, ht₂, heq₂⟩ := ih ht₁
    refine ⟨d₂, out₁ ++ out₂, held₂, ?_, ht₂, ?_⟩
    · refine feed_append.trans ?_
      rw [← decodeBlock, hdec₁, ← encodeBlock, hdec₂]
    · rw [append_cons, heq₁, append_assoc, heq₂, append_assoc]

/-- The end of the code gives out what is held; its padding is no digit. -/
theorem Tracks.ends (h : Tracks e d held) : (decodeBlock behind d (encodeBlockend e)).2 = held := by
  cases h with
  | A => rfl
  | B x =>
    have hdigit : decodeDigit ((x &&& 0x003) <<< 4) (.b (x &&& 0x0fc)) = (.c 0, [x]) :=
      congrArg₂ (fun p q => (DecodeState.c p, [q])) (bits_eq (by simp)) (bits_eq (by simp))
    exact congrArg Prod.snd (@decodeBlock_cons _ _ _ _ _ [61, 61] (bits_eq (by simp)) hdigit)
  | C x =>
    have hdigit : decodeDigit ((x &&& 0x00f) <<< 2) (.c (x &&& 0x0f0)) = (.d 0, [x]) :=
      congrArg₂ (fun p q => (DecodeState.d p, [q])) (bits_eq (by simp)) (bits_eq (by simp))
    exact congrArg Prod.snd (@decodeBlock_cons _ _ _ _ _ [61] (bits_eq (by simp)) hdigit)

/-- The code of a text that is passed to the encoder in blocks. -/
def encode (s : EncodeState) (blocks : List (List UInt8)) : List UInt8 :=
  (feed encodeBlock s blocks).2 ++ encodeBlockend (feed encodeBlock s blocks).1

/-- **What is encoded is decoded again**, in whatever pieces either gets it. -/
theorem decode_encode {blocks pieces : List (List UInt8)}
    (he : e = initEncodestate ∨ e = initEncodestateNonewlines)
    (hcut : pieces.flatten = encode e blocks) :
    (feed (decodeBlock behind) .a pieces).2 = blocks.flatten := by
  have ht : Tracks e .a [] := by
    rcases he with rfl | rfl <;> exact .A
  obtain ⟨d', out, held, hdec, hends, heq⟩ := ht.run blocks.flatten
  have hblocks : feed encodeBlock e blocks = encodeBlock e blocks.flatten := feed_flatten
  have hpieces : feed (decodeBlock behind) .a pieces = decodeBlock behind .a pieces.flatten :=
    feed_flatten
  rw [hpieces, hcut, encode, hblocks, decodeBlock, feed_append, ← decodeBlock, hdec, hends.ends]
  exact heq.symm

/-- The code of four bytes comes to the decoder in two pieces. -/
theorem decode_encode_four : (feed (decodeBlock (-1)) .a [[77, 84], [73, 122, 78, 65, 61, 61]]).2 =
    [49, 50, 51, 52] :=
  @decode_encode (-1) initEncodestate [[49, 50, 51, 52]] _ (Or.inl rfl) (by decide)

end Base64
