import RalioFirmware.Http.Chunked

/-!
# What the reader of chunks takes for a body

The reader divides what comes into chunks, each of them as long as `strtol` makes of the
line before it, up to a line that `strtol` makes no positive number of.  It reports a size
for any text that can be divided so.  A chunked body is such a text, with lines that are
hexadecimal numbers and nothing else.
-/

namespace Http

open List

/-! ## Integers -/

theorem int32_of_small {i : Int} (hlow : -2147483648 ≤ i) (hhigh : i < 2147483648) :
    int32 i = i :=
  Int.bmod_eq_of_le (by omega) (by omega)

theorem int32_bounds (i : Int) : -2147483648 ≤ int32 i ∧ int32 i < 2147483648 := by
  have hlow := Int.le_bmod (show 0 < 4294967296 by omega) (x := i)
  have hhigh := Int.bmod_lt (show 0 < 4294967296 by omega) (x := i)
  unfold int32
  omega

theorem int32_add (i j : Int) : int32 (int32 i + j) = int32 (i + j) := Int.bmod_add_bmod

theorem int32_add_eq_self {i j : Int} (hlow : -2147483648 ≤ j) (hhigh : j ≤ 2147483647) :
    int32 i = int32 (i + j) ↔ j = 0 := by
  constructor
  · intro h
    have hsame : i % (4294967296 : Nat) = (i + j) % (4294967296 : Nat) := by
      rw [← Int.bmod_emod, ← Int.bmod_emod (x := i + j)]
      exact congrArg (· % ((4294967296 : Nat) : Int)) h
    omega
  · rintro rfl
    rw [Int.add_zero]

/-! ## Chunks as the reader takes them -/

/-- A line, without the newline that ends it, and the data behind it. -/
structure Chunk where
  line : Text
  data : Text

namespace Chunk

def bytes (k : Chunk) : Text := k.line ++ 10 :: (k.data ++ crlf)

/-- The data is as long as `strtol` makes of the line. -/
structure Taken (k : Chunk) : Prop where
  line_free : 10 ∉ k.line
  pos : k.data ≠ []
  length_eq : (k.data.length : Int) = strtolHex k.line.trim

def content (chunks : List Chunk) : Text := chunks.flatMap data

end Chunk

/-- A line that no chunk is taken behind, with what comes after it: a newline, or nothing at
all. -/
structure Last (last rest : Text) : Prop where
  ne_nil : last ≠ []
  line_free : 10 ∉ last
  ended : rest = [] ∨ rest.head? = some 10
  nonpos : strtolHex last.trim ≤ 0

structure Divided (coming : Text) (chunks : List Chunk) (last rest : Text) : Prop where
  taken : ∀ k ∈ chunks, k.Taken
  coming_eq : coming = chunks.flatMap Chunk.bytes ++ (last ++ rest)
  last : Last last rest

/-- The length is the one that the headers say, or they say none, and the last line is a
zero. -/
def HTTPClient.Agrees (length : Nat) (last : Text) (c : HTTPClient) : Prop :=
  if c.size ≤ 0 then strtolHex last.trim = 0 else int32 length = c.size

instance (length : Nat) (last : Text) (c : HTTPClient) : Decidable (c.Agrees length last) :=
  inferInstanceAs (Decidable (if c.size ≤ 0 then strtolHex last.trim = 0
    else int32 length = c.size))

/-! ## A line -/

theorem readStringUntil_line {line rest : Text} (hline : 10 ∉ line) :
    readStringUntil 10 (line ++ 10 :: rest) = (line, rest) := by
  have hall : ∀ b ∈ line, (fun b : UInt8 => decide (b ≠ 10)) b = true := fun b hb =>
    decide_eq_true fun h => hline (h ▸ hb)
  rw [readStringUntil, takeWhile_append_of_pos hall, dropWhile_append_of_pos hall,
    takeWhile_cons_of_neg (by decide), dropWhile_cons_of_neg (by decide),
    append_nil, tail_cons]

theorem readStringUntil_last {last rest : Text} (hline : 10 ∉ last)
    (hend : rest = [] ∨ rest.head? = some 10) :
    readStringUntil 10 (last ++ rest) = (last, rest.tail) := by
  cases rest with
  | nil =>
    have hall : ∀ b ∈ last, (fun b : UInt8 => decide (b ≠ 10)) b = true := fun b hb =>
      decide_eq_true fun h => hline (h ▸ hb)
    rw [append_nil, readStringUntil, takeWhile_eq_self_iff.mpr hall,
      dropWhile_eq_nil_iff.mpr hall]
  | cons b rest =>
    obtain rfl : b = 10 := by simpa using hend
    exact readStringUntil_line hline

/-- **A line is read** up to its newline, or to where nothing more comes. -/
theorem readStringUntil_cases (coming : Text) :
    ∃ line rest, coming = line ++ rest ∧ 10 ∉ line ∧ (rest = [] ∨ rest.head? = some 10) ∧
      readStringUntil 10 coming = (line, rest.tail) := by
  have hline : (10 : UInt8) ∉ coming.takeWhile (· ≠ 10) := fun h => by
    simpa using mem_takeWhile_imp h
  have hend : coming.dropWhile (· ≠ (10 : UInt8)) = [] ∨
      (coming.dropWhile (· ≠ (10 : UInt8))).head? = some 10 := by
    cases hrest : coming.dropWhile (· ≠ (10 : UInt8)) with
    | nil => exact .inl rfl
    | cons b rest =>
      right
      have hnot := head_dropWhile_not (fun b : UInt8 => decide (b ≠ 10))
        (show coming.dropWhile _ ≠ [] by rw [hrest]; simp)
      simp only [hrest, head_cons, decide_eq_false_iff_not, not_not] at hnot
      rw [head?_cons, hnot]
  exact ⟨_, _, takeWhile_append_dropWhile.symm, hline, hend, rfl⟩

theorem strtolHex_trim_nil : strtolHex (Text.trim []) = 0 := rfl

theorem Chunk.Taken.line_ne (h : Chunk.Taken k) : k.line ≠ [] := by
  intro hnil
  have hlen := h.length_eq
  rw [hnil, strtolHex_trim_nil] at hlen
  have hpos := length_pos_iff.mpr h.pos
  omega

/-! ## A turn -/

/-- The reader when it has written `written`. -/
def reached (written coming : Text) : Reader :=
  ⟨coming, written, int32 written.length, int32 written.length⟩

variable {chunks : List Chunk}

namespace HTTPClient

variable {c : HTTPClient} {written coming : Text}

theorem connected_of_ne (h : coming ≠ []) : c.connected coming = true := by
  simp [connected, h]

/-- **A chunk is read** whole. -/
theorem turn_chunk {k : Chunk} (h : k.Taken) (rest : Text) :
    c.turn (reached written (k.bytes ++ rest)) = .again (reached (written ++ k.data) rest) := by
  have hne := length_pos_iff.mpr h.line_ne
  have hpos := length_pos_iff.mpr h.pos
  have hcoming : k.bytes ++ rest = k.line ++ 10 :: (k.data ++ (crlf ++ rest)) := by
    simp [Chunk.bytes]
  have hlen : strtolHex k.line.trim = k.data.length := h.length_eq.symm
  have hsum : int32 (int32 written.length + (k.data.length : Int)) =
      int32 (written ++ k.data).length := by
    rw [int32_add, length_append, Int.natCast_add]
  rw [turn, reached, hcoming, if_neg (by rw [connected_of_ne (by simp)]; decide)]
  simp only [readStringUntil_line h.line_free, hlen, Int.toNat_natCast, take_left,
    drop_left, hsum]
  rw [if_neg (by omega), if_pos (by omega), if_neg (by omega), readTrailing,
    if_pos (show (crlf ++ rest).take 2 = crlf from rfl)]
  simp only [reached, show (crlf ++ rest).drop 2 = rest from rfl]

/-- **The last line is read**, and the sums are compared. -/
theorem turn_last {last rest : Text} (h : Last last rest) :
    ∃ s, c.turn (reached written (last ++ rest)) =
      if c.Agrees written.length last then .break ⟨rest.tail, written, s, int32 written.length⟩
      else .error errorStreamWrite ⟨rest.tail, written, s, int32 written.length⟩ := by
  have hne := length_pos_iff.mpr h.ne_nil
  have hnonpos := h.nonpos
  obtain ⟨hlow, hhigh⟩ := strtolHex_bounds last.trim
  refine ⟨int32 (int32 written.length + strtolHex last.trim), ?_⟩
  have hagrees : (int32 written.length ≠ if c.size ≤ 0 then
      int32 (int32 written.length + strtolHex last.trim) else c.size) ↔
      ¬ c.Agrees written.length last := by
    rw [Agrees]
    split
    · rw [int32_add, ne_eq, int32_add_eq_self hlow hhigh]
    · rfl
  rw [turn, reached, if_neg (by rw [connected_of_ne (by simp [h.ne_nil])]; decide)]
  simp only [readStringUntil_last h.line_free h.ended]
  rw [if_neg (by omega), if_neg (by omega)]
  by_cases hok : c.Agrees written.length last
  · rw [if_pos hok, if_neg (fun hno => hagrees.mp hno hok)]
  · rw [if_neg hok, if_pos (hagrees.mpr hok)]

/-- **A turn** takes a chunk, or the last line, or fails. -/
theorem turn_cases (c : HTTPClient) (written coming : Text) :
    (∃ k : Chunk, ∃ rest, k.Taken ∧ coming = k.bytes ++ rest) ∨
      (∃ last rest, Last last rest ∧ coming = last ++ rest) ∨
      ∃ code s, c.turn (reached written coming) = .error code s ∧ code < 0 := by
  by_cases hconn : c.connected coming = false
  · exact .inr (.inr ⟨errorConnectionLost, _, if_pos hconn, by decide⟩)
  obtain ⟨line, rest, hcoming, hfree, hend, hread⟩ := readStringUntil_cases coming
  by_cases hnil : line.length ≤ 0
  · refine .inr (.inr ?_)
    rw [turn, reached, if_neg hconn]
    simp only [hread, if_pos hnil]
    exact ⟨_, _, rfl, by decide⟩
  have hne : line ≠ [] := fun h => hnil (by rw [h]; exact Nat.le_refl 0)
  by_cases hpos : strtolHex line.trim > 0
  · -- The line has its newline, or there is no data behind it.
    by_cases hshort : (rest.tail.take (strtolHex line.trim).toNat).length <
        (strtolHex line.trim).toNat
    · refine .inr (.inr ?_)
      rw [turn, reached, if_neg hconn]
      simp only [hread, if_neg hnil, if_pos hpos, if_pos hshort]
      exact ⟨_, _, rfl, by split <;> decide⟩
    by_cases htrailing : (rest.tail.drop (strtolHex line.trim).toNat).take 2 = crlf
    · left
      rw [length_take] at hshort
      have hcons : rest = 10 :: rest.tail := by
        cases rest with
        | nil =>
          simp at hshort
          omega
        | cons b rest =>
          obtain rfl : b = 10 := by simpa using hend
          rfl
      have hlength : (rest.tail.take (strtolHex line.trim).toNat).length =
          (strtolHex line.trim).toNat := by
        rw [length_take]
        omega
      refine ⟨⟨line, rest.tail.take (strtolHex line.trim).toNat⟩,
        (rest.tail.drop (strtolHex line.trim).toNat).drop 2, ⟨hfree, ?_, ?_⟩, ?_⟩
      · refine length_pos_iff.mp ?_
        rw [hlength]
        omega
      · grind
      · rw [Chunk.bytes, ← htrailing, hcoming]
        rw [append_assoc, cons_append, append_assoc, take_append_drop,
          take_append_drop, ← hcons]
    · refine .inr (.inr ?_)
      rw [turn, reached, if_neg hconn]
      simp only [hread, if_neg hnil, if_pos hpos, if_neg hshort, readTrailing, if_neg htrailing]
      exact ⟨_, _, rfl, by decide⟩
  · exact .inr (.inl ⟨line, rest, ⟨hne, hfree, hend, by omega⟩, hcoming⟩)

/-! ## The loop -/

theorem loop_chunks (hchunks : ∀ k ∈ chunks, k.Taken) (fuel : Nat)
    (written rest : Text) :
    c.loop (chunks.length + fuel) (reached written (chunks.flatMap Chunk.bytes ++ rest)) =
      c.loop fuel (reached (written ++ Chunk.content chunks) rest) := by
  induction chunks generalizing written with
  | nil => simp [Chunk.content]
  | cons k chunks ih =>
    have hturn := @turn_chunk c written k (hchunks k mem_cons_self)
      (chunks.flatMap Chunk.bytes ++ rest)
    rw [flatMap_cons, append_assoc, length_cons,
      show chunks.length + 1 + fuel = chunks.length + fuel + 1 by omega, loop, hturn]
    have hrest := ih (fun k hk => hchunks k (mem_cons_of_mem _ hk)) (written ++ k.data)
    rw [append_assoc] at hrest
    exact hrest

theorem length_le_bytes (chunks : List Chunk) :
    chunks.length ≤ (chunks.flatMap Chunk.bytes).length := by
  induction chunks with
  | nil => exact Nat.le_refl _
  | cons k chunks ih =>
    simp only [flatMap_cons, length_append, length_cons, Chunk.bytes]
    omega

/-- **The loop** comes to an end with a text that can be divided, or with an error. -/
theorem loop_cases (c : HTTPClient) {fuel : Nat} {coming : Text} (hfuel : coming.length < fuel)
    (written : Text) :
    (∃ chunks last rest, Divided coming chunks last rest) ∨
      ∃ code s, c.loop fuel (reached written coming) = some (.error code s) ∧ code < 0 := by
  induction fuel generalizing coming written with
  | zero => omega
  | succ fuel ih =>
    rcases c.turn_cases written coming with
      ⟨k, rest, hk, hcoming⟩ | ⟨last, rest, hlast, hcoming⟩ | ⟨code, s, herror, hneg⟩
    · have hlength : rest.length < fuel := by
        have hlen := congrArg length hcoming
        simp only [Chunk.bytes, length_append, length_cons] at hlen
        omega
      rcases ih hlength (written ++ k.data) with
        ⟨chunks, last, rest', hdivided⟩ | ⟨code, s, herror, hneg⟩
      · refine .inl ⟨k :: chunks, last, rest', ⟨?_, ?_, hdivided.last⟩⟩
        · exact forall_mem_cons.mpr ⟨hk, hdivided.taken⟩
        · rw [hcoming, hdivided.coming_eq, flatMap_cons, append_assoc]
      · refine .inr ⟨code, s, ?_, hneg⟩
        rw [loop, hcoming, turn_chunk hk]
        exact herror
    · exact .inl ⟨[], last, rest, ⟨by simp, by simpa using hcoming, hlast⟩⟩
    · refine .inr ⟨code, s, ?_, hneg⟩
      rw [loop, herror]

/-! ## `writeToPrint` -/

theorem reached_nil (coming : Text) : (⟨coming, [], 0, 0⟩ : Reader) = reached [] coming := rfl

theorem writeToPrint_divided {last rest : Text}
    (h : Divided c.coming chunks last rest) (atHand : Nat) :
    c.writeToPrint atHand =
      some (if c.Agrees (Chunk.content chunks).length last then
        ⟨int32 (Chunk.content chunks).length, Chunk.content chunks, rest.tail.drop atHand⟩
      else ⟨errorStreamWrite, Chunk.content chunks, rest.tail⟩) := by
  have hne : c.coming ≠ [] := by
    rw [h.coming_eq]
    simp [h.last.ne_nil]
  obtain ⟨s, hturn⟩ := @turn_last c (Chunk.content chunks) _ _ h.last
  obtain ⟨fuel, hfuel⟩ : ∃ fuel, c.coming.length + 1 = chunks.length + (fuel + 1) := by
    have hle := length_le_bytes chunks
    have hlen := congrArg length h.coming_eq
    rw [length_append] at hlen
    exact ⟨c.coming.length - chunks.length, by omega⟩
  have hloop := loop_chunks (c := c) h.taken (fuel + 1) [] (last ++ rest)
  rw [nil_append, loop, hturn, ← h.coming_eq, ← hfuel] at hloop
  rw [writeToPrint, if_neg (by rw [connected_of_ne hne]; simp), reached_nil, hloop]
  by_cases hagrees : c.Agrees (Chunk.content chunks).length last
  · simp only [if_pos hagrees]
  · simp only [if_neg hagrees]

/-- **`writeToPrint`** fails where the text cannot be divided. -/
theorem writeToPrint_cases (c : HTTPClient) (atHand : Nat) :
    (∃ chunks last rest, Divided c.coming chunks last rest) ∨
      ∃ out, c.writeToPrint atHand = some out ∧ out.returned < 0 := by
  by_cases hconn : c.connected c.coming = false ∧ c.size > 0
  · exact .inr ⟨_, if_pos hconn, show errorNotConnected < 0 by decide⟩
  rcases c.loop_cases (Nat.lt_succ_self c.coming.length) [] with
    hdivided | ⟨code, s, herror, hneg⟩
  · exact .inl hdivided
  · refine .inr ⟨⟨code, s.written, s.coming⟩, ?_, hneg⟩
    rw [writeToPrint, if_neg hconn, reached_nil, herror]

end HTTPClient

/-! ## Chunked bodies -/

/-- A line that is a hexadecimal number, of those that an `int` holds. -/
def SizeLine (n : Nat) (line : Text) : Prop :=
  ∃ ds, ds ≠ [] ∧ (∀ b ∈ ds, isxdigit b = true) ∧ hexValue ds = n ∧ n < 2147483648 ∧
    line = ds ++ [13]

/-- A chunked body, with the data of its chunks: each chunk has a line with its size, and is
complete and followed by a line end; the one of size zero comes last. -/
inductive Body : Text → Text → Prop
  | last {line : Text} (h : SizeLine 0 line) : Body (line ++ 10 :: crlf) []
  | chunk {line data body more : Text} (h : SizeLine data.length line) (hne : data ≠ [])
      (hmore : Body body more) : Body (line ++ 10 :: (data ++ crlf) ++ body) (data ++ more)

/-- No line that the reader divides the text at is anything but a size line. -/
def HTTPClient.Plain (c : HTTPClient) : Prop :=
  ∀ chunks last rest, Divided c.coming chunks last rest →
    c.Agrees (Chunk.content chunks).length last →
      0 ≤ int32 (Chunk.content chunks).length →
        (∀ k ∈ chunks, SizeLine k.data.length k.line) ∧ SizeLine 0 last ∧ 10 :: crlf <+: rest

theorem SizeLine.line_free {n : Nat} {line : Text} (h : SizeLine n line) : 10 ∉ line := by
  obtain ⟨ds, -, hds, -, -, rfl⟩ := h
  intro hmem
  rcases mem_append.mp hmem with hmem | hmem
  · exact absurd (hds 10 hmem) (by decide)
  · exact absurd hmem (by decide)

theorem SizeLine.strtolHex_trim {n : Nat} {line : Text} (h : SizeLine n line) :
    strtolHex line.trim = n := by
  obtain ⟨ds, hne, hds, hvalue, hlt, rfl⟩ := h
  rw [trim_digits hds, strtolHex_digits hne hds, hvalue]
  omega

theorem line_unique {line line' rest rest' : Text} (hline : 10 ∉ line) (hline' : 10 ∉ line')
    (hend : rest' = [] ∨ rest'.head? = some 10)
    (h : line ++ 10 :: rest = line' ++ rest') : line = line' ∧ rest' = 10 :: rest := by
  have hread := @readStringUntil_line _ rest hline
  rw [h, readStringUntil_last hline' hend, Prod.mk.injEq] at hread
  obtain ⟨rfl, -⟩ := hread
  exact ⟨rfl, (append_cancel_left h).symm⟩

/-- **A text that starts with a body** is divided as the body is. -/
theorem Divided.plain_of_body {body data tail last rest : Text}
    (hb : Body body data) (h : Divided (body ++ tail) chunks last rest) :
    (∀ k ∈ chunks, SizeLine k.data.length k.line) ∧ SizeLine 0 last ∧ 10 :: crlf <+: rest := by
  induction hb generalizing chunks with
  | @last line hline =>
    have hcoming := h.coming_eq
    rw [append_assoc, cons_append] at hcoming
    cases chunks with
    | nil =>
      obtain ⟨rfl, hrest⟩ := line_unique hline.line_free h.last.line_free h.last.ended hcoming
      exact ⟨by simp, hline, tail, hrest.symm⟩
    | cons k chunks =>
      -- The line of a chunk is no zero.
      have hk := h.taken k mem_cons_self
      rw [flatMap_cons, Chunk.bytes, append_assoc, append_assoc] at hcoming
      obtain ⟨rfl, -⟩ := line_unique hline.line_free hk.line_free (.inr rfl) hcoming
      have hlen := hk.length_eq
      have hpos := length_pos_iff.mpr hk.pos
      rw [hline.strtolHex_trim] at hlen
      omega
  | @chunk line data body more hline hne hmore ih =>
    have hcoming := h.coming_eq
    simp only [append_assoc, cons_append] at hcoming
    have hpos := length_pos_iff.mpr hne
    cases chunks with
    | nil =>
      -- The last line is no size of a chunk.
      obtain ⟨rfl, -⟩ := line_unique hline.line_free h.last.line_free h.last.ended hcoming
      have hnonpos := h.last.nonpos
      rw [hline.strtolHex_trim] at hnonpos
      omega
    | cons k chunks =>
      have hk := h.taken k mem_cons_self
      simp only [flatMap_cons, Chunk.bytes, append_assoc, cons_append] at hcoming
      obtain ⟨hsame, htail⟩ := line_unique hline.line_free hk.line_free (.inr rfl) hcoming
      have hlen : k.data.length = data.length := by
        have heq := hk.length_eq
        rw [← hsame, hline.strtolHex_trim] at heq
        omega
      have hrest : k.data ++ crlf ++ (chunks.flatMap Chunk.bytes ++ (last ++ rest)) =
          data ++ crlf ++ (body ++ tail) := by
        simpa using htail
      have hbody := (append_inj hrest (by
        rw [length_append, length_append, hlen])).2
      obtain ⟨hlines, hlast, hclosing⟩ := ih
        ⟨fun k hk => h.taken k (mem_cons_of_mem _ hk), hbody.symm, h.last⟩
      refine ⟨forall_mem_cons.mpr ⟨?_, hlines⟩, hlast, hclosing⟩
      rw [hlen, ← hsame]
      exact hline

theorem body_of_chunks {last : Text} (hlast : SizeLine 0 last)
    (hchunks : ∀ k ∈ chunks, k.Taken ∧ SizeLine k.data.length k.line) :
    Body (chunks.flatMap Chunk.bytes ++ (last ++ 10 :: crlf)) (Chunk.content chunks) := by
  induction chunks with
  | nil => exact .last hlast
  | cons k chunks ih =>
    obtain ⟨htaken, hline⟩ := hchunks k mem_cons_self
    rw [flatMap_cons, append_assoc, Chunk.content, flatMap_cons]
    exact .chunk hline htaken.pos (ih fun k hk => hchunks k (mem_cons_of_mem _ hk))

namespace HTTPClient

/-- **What is reported as read.**  For any text that comes, a size is reported only if the
text starts with a chunked body, and its data is what has been written, exactly if every
line that the reader divides such a text at is a size line. -/
theorem writeToPrint_strict (atHand : Nat) (c : HTTPClient) :
    (∃ out, c.writeToPrint atHand = some out ∧
      (0 ≤ out.returned → ∃ body tail, Body body out.written ∧ c.coming = body ++ tail)) ↔
    c.Plain := by
  constructor
  · rintro ⟨out, hout, hstrict⟩ chunks last rest hdivided hagrees hsize
    rw [writeToPrint_divided hdivided, if_pos hagrees, Option.some.injEq] at hout
    have hreturned : 0 ≤ out.returned := by grind
    obtain ⟨body, tail, hbody, hcoming⟩ := hstrict hreturned
    rw [hcoming] at hdivided
    exact hdivided.plain_of_body hbody
  · intro hplain
    rcases c.writeToPrint_cases atHand with ⟨chunks, last, rest, hdivided⟩ | ⟨out, hout, hneg⟩
    · refine ⟨_, writeToPrint_divided hdivided atHand, ?_⟩
      by_cases hagrees : c.Agrees (Chunk.content chunks).length last
      · rw [if_pos hagrees]
        intro hsize
        simp only at hsize
        obtain ⟨hlines, hlast, tail, hrest⟩ := hplain chunks last rest hdivided hagrees hsize
        refine ⟨chunks.flatMap Chunk.bytes ++ (last ++ 10 :: crlf), tail,
          body_of_chunks hlast fun k hk => ⟨hdivided.taken k hk, hlines k hk⟩, ?_⟩
        rw [hdivided.coming_eq, ← hrest]
        simp
      · rw [if_neg hagrees]
        intro hsize
        exact absurd hsize (show ¬ (0 : Int) ≤ errorStreamWrite by decide)
    · exact ⟨out, hout, fun hsize => absurd hsize (Int.not_le.mpr hneg)⟩

/-- A line that is no number ends the body. -/
theorem not_writeToPrint_strict :
    ¬ ∀ (atHand : Nat) (c : HTTPClient), ∃ out, c.writeToPrint atHand = some out ∧
      (0 ≤ out.returned → ∃ body tail, Body body out.written ∧ c.coming = body ++ tail) := by
  intro h
  obtain ⟨out, hout, hstrict⟩ := h 0 ⟨text "none\r\n\r\n", false, -1⟩
  have hrun : writeToPrint 0 ⟨text "none\r\n\r\n", false, -1⟩ = some ⟨0, [], crlf⟩ := by decide
  rw [hrun, Option.some.injEq] at hout
  subst hout
  obtain ⟨body, tail, hbody, hcoming⟩ := hstrict (by decide)
  have hdivided : Divided (body ++ tail) [] (text "none\r") (10 :: crlf) :=
    ⟨by simp, hcoming.symm, ⟨by decide, by decide, .inr rfl, by decide⟩⟩
  obtain ⟨-, ⟨ds, -, hds, -, -, hline⟩, -⟩ := hdivided.plain_of_body hbody
  have hmem : (110 : UInt8) ∈ ds ++ [13] := hline ▸ (by decide)
  rcases mem_append.mp hmem with hmem | hmem
  · exact absurd (hds 110 hmem) (by decide)
  · exact absurd hmem (by decide)

end HTTPClient

end Http
