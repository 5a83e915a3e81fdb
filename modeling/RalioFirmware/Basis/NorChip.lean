import RalioFirmware.Basis.Word

/-!
# NOR flash behind a driver

A NOR flash chip is erased a sector at a time, to all ones, and programmed a
byte range at a time; programming can only clear bits.  Software sees it
through a driver with three calls, each of which may report a failure.

`Driver` is that interface.  The device state `Dev` is left open, so a
driver may fail when it likes; what a call is held to is

* on success, the effect NOR flash has, inside the chip's capacity;
* on failure, to touch no byte outside the range it was called for.

`Chip` adds a count of the calls that reported a failure, which is how
"no flash operation failed" is said of a run.  The rest of the file reads
the contents as byte strings: `slice`, `Holds` and `Blank`.
-/

namespace Nor

open List

/-- A flash driver for sectors of `sector` bytes.  `program` is held to its
effect for ranges aligned to `word` bytes only. -/
structure Driver (sector word : Nat) where
  Dev : Type
  cells : Dev → Nat → UInt8
  capacity : Nat
  erase : Nat → Dev → Bool × Dev
  program : Nat → List UInt8 → Dev → Bool × Dev
  read : Nat → Nat → Dev → Option (List UInt8) × Dev
  erase_done : ∀ {s d d'}, erase s d = (true, d') →
    ∀ a, a / sector = s → cells d' a = 0xFF
  erase_else : ∀ {s d ok d'}, erase s d = (ok, d') →
    ∀ a, a / sector ≠ s → cells d' a = cells d a
  erase_within : ∀ {s d d'}, erase s d = (true, d') → s * sector + sector ≤ capacity
  program_done : ∀ {a bs d d'}, a % word = 0 → bs.length % word = 0 →
    program a bs d = (true, d') →
    ∀ i (h : i < bs.length), cells d' (a + i) = cells d (a + i) &&& bs[i]
  program_else : ∀ {a bs d ok d'}, a % word = 0 → bs.length % word = 0 →
    program a bs d = (ok, d') →
    ∀ x, x < a ∨ a + bs.length ≤ x → cells d' x = cells d x
  program_within : ∀ {a bs d d'}, program a bs d = (true, d') → a + bs.length ≤ capacity
  read_done : ∀ {a n d bs d'}, read a n d = (some bs, d') →
    bs = (List.range n).map fun i => cells d (a + i)
  read_else : ∀ a n d, cells (read a n d).2 = cells d
  read_within : ∀ {a n d bs d'}, read a n d = (some bs, d') → a + n ≤ capacity

/-- A device and the number of driver calls on it that reported a failure. -/
structure Chip {sector word : Nat} (D : Driver sector word) where
  dev : D.Dev
  faults : Nat

namespace Chip

variable {sector word : Nat} {D : Driver sector word}

/-- The contents of the chip. -/
def cells (c : Chip D) : Nat → UInt8 := D.cells c.dev

/-- The chip after a call that ended in state `d`, counting its failure. -/
def after (ok : Bool) (d : D.Dev) (c : Chip D) : Chip D :=
  ⟨d, if ok then c.faults else c.faults + 1⟩

def erase (s : Nat) (c : Chip D) : Bool × Chip D :=
  ((D.erase s c.dev).1, c.after (D.erase s c.dev).1 (D.erase s c.dev).2)

def program (a : Nat) (bs : List UInt8) (c : Chip D) : Bool × Chip D :=
  ((D.program a bs c.dev).1, c.after (D.program a bs c.dev).1 (D.program a bs c.dev).2)

def read (a n : Nat) (c : Chip D) : Option (List UInt8) × Chip D :=
  ((D.read a n c.dev).1, c.after (D.read a n c.dev).1.isSome (D.read a n c.dev).2)

variable {c c' : Chip D}

theorem erase_true {s : Nat} (h : c.erase s = (true, c')) :
    (∀ a, a / sector = s → c'.cells a = 0xFF) ∧
    (∀ a, a / sector ≠ s → c'.cells a = c.cells a) ∧
    c'.faults = c.faults ∧ s * sector + sector ≤ D.capacity := by
  obtain ⟨hok, rfl⟩ := Prod.mk.inj h
  have hd : D.erase s c.dev = (true, (D.erase s c.dev).2) := Prod.ext hok rfl
  exact ⟨D.erase_done hd, D.erase_else hd, by simp [after, hok], D.erase_within hd⟩

theorem erase_false {s : Nat} (h : c.erase s = (false, c')) :
    (∀ a, a / sector ≠ s → c'.cells a = c.cells a) ∧ c'.faults = c.faults + 1 := by
  obtain ⟨hok, rfl⟩ := Prod.mk.inj h
  have hd : D.erase s c.dev = (false, (D.erase s c.dev).2) := Prod.ext hok rfl
  exact ⟨D.erase_else hd, by simp [after, hok]⟩

theorem program_true {a : Nat} {bs : List UInt8} (ha : a % word = 0)
    (hbs : bs.length % word = 0) (h : c.program a bs = (true, c')) :
    (∀ i (hi : i < bs.length), c'.cells (a + i) = c.cells (a + i) &&& bs[i]) ∧
    (∀ x, x < a ∨ a + bs.length ≤ x → c'.cells x = c.cells x) ∧
    c'.faults = c.faults ∧ a + bs.length ≤ D.capacity := by
  obtain ⟨hok, rfl⟩ := Prod.mk.inj h
  have hd : D.program a bs c.dev = (true, (D.program a bs c.dev).2) := Prod.ext hok rfl
  exact ⟨D.program_done ha hbs hd, D.program_else ha hbs hd, by simp [after, hok],
    D.program_within hd⟩

theorem program_false {a : Nat} {bs : List UInt8} (ha : a % word = 0)
    (hbs : bs.length % word = 0) (h : c.program a bs = (false, c')) :
    (∀ x, x < a ∨ a + bs.length ≤ x → c'.cells x = c.cells x) ∧
    c'.faults = c.faults + 1 := by
  obtain ⟨hok, rfl⟩ := Prod.mk.inj h
  have hd : D.program a bs c.dev = (false, (D.program a bs c.dev).2) := Prod.ext hok rfl
  exact ⟨D.program_else ha hbs hd, by simp [after, hok]⟩

end Chip

/-! ## Contents as byte strings -/

/-- The `n` bytes of `f` from address `a`. -/
def slice (f : Nat → UInt8) (a n : Nat) : List UInt8 := (List.range n).map fun i => f (a + i)

@[simp] theorem slice_length (f : Nat → UInt8) (a n : Nat) : (slice f a n).length = n := by
  simp [slice]

@[simp] theorem slice_getElem (f : Nat → UInt8) (a n i : Nat) (h : i < (slice f a n).length) :
    (slice f a n)[i] = f (a + i) := by
  simp [slice]

theorem slice_congr {f g : Nat → UInt8} {a n : Nat} (h : ∀ i, i < n → f (a + i) = g (a + i)) :
    slice f a n = slice g a n := by
  apply ext_getElem (by simp)
  intro i hi _
  simpa using h i (by simpa using hi)

theorem slice_append (f : Nat → UInt8) (a m n : Nat) :
    slice f a (m + n) = slice f a m ++ slice f (a + m) n := by
  simp [slice, range_add, Function.comp_def, Nat.add_assoc]

theorem slice_take (f : Nat → UInt8) (a m n : Nat) :
    (slice f a n).take m = slice f a (min m n) := by
  simp [slice, ← map_take, take_range]

/-- The contents hold the byte string `bs` at address `a`. -/
def Holds (f : Nat → UInt8) (a : Nat) (bs : List UInt8) : Prop :=
  ∀ i (h : i < bs.length), f (a + i) = bs[i]

/-- The `n` bytes from address `a` are erased. -/
def Blank (f : Nat → UInt8) (a n : Nat) : Prop := ∀ i, i < n → f (a + i) = 0xFF

theorem Holds.slice_eq {f : Nat → UInt8} {a : Nat} {bs : List UInt8} (h : Holds f a bs) :
    slice f a bs.length = bs := by
  apply ext_getElem (by simp)
  intro i _ hi
  simpa using h i hi

theorem holds_slice (f : Nat → UInt8) (a n : Nat) : Holds f a (slice f a n) := by
  intro i hi
  simp

theorem Holds.of_append {f : Nat → UInt8} {a : Nat} {bs cs : List UInt8}
    (h : Holds f a (bs ++ cs)) : Holds f a bs ∧ Holds f (a + bs.length) cs := by
  constructor
  · intro i hi
    rw [h i (by rw [length_append]; omega), getElem_append_left hi]
  · intro i hi
    rw [Nat.add_assoc, h (bs.length + i) (by rw [length_append]; omega),
      getElem_append_right (Nat.le_add_right _ _)]
    simp only [Nat.add_sub_cancel_left]

theorem ff_and (b : UInt8) : 0xFF &&& b = b := by
  show (-1 : UInt8) &&& b = b
  simp

/-- The bits that programming `bs` at address `a` leaves standing at `x`. -/
def maskAt (a : Nat) (bs : List UInt8) (x : Nat) : UInt8 :=
  if a ≤ x then (bs[x - a]?).getD 0xFF else 0xFF

theorem and_ff (b : UInt8) : b &&& 0xFF = b := by
  rw [UInt8.and_comm, ff_and]

theorem maskAt_of_lt {a x : Nat} {bs : List UInt8} (h : x < a) : maskAt a bs x = 0xFF := by
  simp [maskAt, show ¬ a ≤ x by omega]

theorem maskAt_of_ge {a x : Nat} {bs : List UInt8} (h : a + bs.length ≤ x) :
    maskAt a bs x = 0xFF := by
  simp only [maskAt]
  split
  · rw [getElem?_eq_none (by omega), Option.getD_none]
  · rfl

theorem maskAt_add {a i : Nat} {bs : List UInt8} (h : i < bs.length) :
    maskAt a bs (a + i) = bs[i] := by
  simp [maskAt, h]

theorem maskAt_append (a : Nat) (bs cs : List UInt8) (x : Nat) :
    maskAt a (bs ++ cs) x = maskAt a bs x &&& maskAt (a + bs.length) cs x := by
  by_cases h : x < a
  · rw [maskAt_of_lt h, maskAt_of_lt h, maskAt_of_lt (by omega), and_ff]
  · by_cases h' : x < a + bs.length
    · rw [maskAt_of_lt h', and_ff]
      simp only [maskAt, if_pos (show a ≤ x by omega)]
      rw [getElem?_append_left (by omega)]
    · rw [show maskAt a bs x = 0xFF from maskAt_of_ge (by omega), ff_and]
      simp only [maskAt, if_pos (show a ≤ x by omega),
        if_pos (show a + bs.length ≤ x by omega)]
      rw [getElem?_append_right (by omega),
        show x - a - bs.length = x - (a + bs.length) by omega]

namespace Chip

variable {sector word : Nat} {D : Driver sector word} {c c' : Chip D}

theorem program_blank {a : Nat} {bs : List UInt8} (ha : a % word = 0)
    (hbs : bs.length % word = 0) (h : c.program a bs = (true, c'))
    (hblank : Blank c.cells a bs.length) : Holds c'.cells a bs := by
  intro i hi
  rw [(program_true ha hbs h).1 i hi, hblank i hi, ff_and]

theorem read_some {a n : Nat} {bs : List UInt8} (h : c.read a n = (some bs, c')) :
    bs = slice c.cells a n ∧ c'.cells = c.cells ∧ c'.faults = c.faults ∧
      a + n ≤ D.capacity := by
  obtain ⟨hok, rfl⟩ := Prod.mk.inj h
  have hd : D.read a n c.dev = (some bs, (D.read a n c.dev).2) := Prod.ext hok rfl
  exact ⟨D.read_done hd, D.read_else a n c.dev, by simp [after, hok], D.read_within hd⟩

theorem read_none {a n : Nat} (h : c.read a n = (none, c')) :
    c'.cells = c.cells ∧ c'.faults = c.faults + 1 := by
  obtain ⟨hok, rfl⟩ := Prod.mk.inj h
  exact ⟨D.read_else a n c.dev, by simp [after, hok]⟩

theorem read_cells (a n : Nat) (c : Chip D) : (c.read a n).2.cells = c.cells :=
  D.read_else a n c.dev

theorem erase_faults_le (s : Nat) (c : Chip D) : c.faults ≤ (c.erase s).2.faults := by
  simp only [erase, after]
  split <;> omega

theorem program_faults_le (a : Nat) (bs : List UInt8) (c : Chip D) :
    c.faults ≤ (c.program a bs).2.faults := by
  simp only [program, after]
  split <;> omega

theorem read_faults_le (a n : Nat) (c : Chip D) : c.faults ≤ (c.read a n).2.faults := by
  simp only [read, after]
  split <;> omega

/-! ## Ranges programmed in several calls -/

/-- `c'` is `c` with the bytes `bs` programmed at address `a`, by calls none
of which failed. -/
structure Programmed (c c' : Chip D) (a : Nat) (bs : List UInt8) : Prop where
  cells : ∀ x, c'.cells x = c.cells x &&& maskAt a bs x
  faults : c'.faults = c.faults
  within : bs ≠ [] → a + bs.length ≤ D.capacity

theorem Programmed.refl (c : Chip D) (a : Nat) : Programmed c c a [] :=
  ⟨fun x => by simp [maskAt, and_ff], rfl, by simp⟩

theorem programmed_of_program {a : Nat} {bs : List UInt8} (ha : a % word = 0)
    (hbs : bs.length % word = 0) (h : c.program a bs = (true, c')) :
    Programmed c c' a bs := by
  obtain ⟨hin, hout, hf, hcap⟩ := program_true ha hbs h
  refine ⟨fun x => ?_, hf, fun _ => hcap⟩
  by_cases hx : a ≤ x ∧ x < a + bs.length
  · obtain ⟨i, rfl⟩ : ∃ i, x = a + i := ⟨x - a, by omega⟩
    rw [hin i (by omega), maskAt_add (by omega)]
  · rw [hout x (by omega)]
    rcases Nat.lt_or_ge x a with hlt | hge
    · rw [maskAt_of_lt hlt, and_ff]
    · rw [maskAt_of_ge (by omega), and_ff]

theorem Programmed.trans {c'' : Chip D} {a b : Nat} {bs cs : List UInt8}
    (h : Programmed c c' a bs) (hb : b = a + bs.length) (h' : Programmed c' c'' b cs) :
    Programmed c c'' a (bs ++ cs) := by
  subst hb
  refine ⟨fun x => ?_, h'.faults.trans h.faults, ?_⟩
  · rw [h'.cells, h.cells, maskAt_append, UInt8.and_assoc]
  · intro hne
    cases cs with
    | nil => simpa using h.within (by simpa using hne)
    | cons b cs => simpa [Nat.add_assoc] using h'.within (by simp)

theorem Programmed.shrink {a b : Nat} {bs cs : List UInt8} (h : Programmed c c' a bs)
    (hab : a ≤ b) (hlen : b + cs.length ≤ a + bs.length)
    (hin : ∀ x, b ≤ x → x < b + cs.length →
      c.cells x &&& maskAt a bs x = c.cells x &&& maskAt b cs x)
    (hout : ∀ x, a ≤ x → x < a + bs.length → x < b ∨ b + cs.length ≤ x →
      maskAt a bs x = c.cells x) :
    Programmed c c' b cs := by
  have hwithin : cs ≠ [] → b + cs.length ≤ D.capacity := by
    intro hne
    have hpos := length_pos_iff.mpr hne
    exact Nat.le_trans hlen (h.within (length_pos_iff.mp (by omega)))
  refine ⟨fun x => ?_, h.faults, hwithin⟩
  rw [h.cells]
  by_cases hx : b ≤ x ∧ x < b + cs.length
  · exact hin x hx.1 hx.2
  · rw [show maskAt b cs x = 0xFF by
      rcases Nat.lt_or_ge x b with hlt | hge
      · exact maskAt_of_lt hlt
      · exact maskAt_of_ge (by omega), and_ff]
    rcases Nat.lt_or_ge x a with hlt | hge
    · rw [maskAt_of_lt hlt, and_ff]
    · rcases Nat.lt_or_ge x (a + bs.length) with hlt | hge'
      · rw [hout x hge hlt (by omega), UInt8.and_self]
      · rw [maskAt_of_ge hge', and_ff]

theorem Programmed.holds {a : Nat} {bs : List UInt8} (h : Programmed c c' a bs)
    (hblank : Blank c.cells a bs.length) : Holds c'.cells a bs := by
  intro i hi
  rw [h.cells, maskAt_add hi, hblank i hi, ff_and]

theorem Programmed.other {a x : Nat} {bs : List UInt8} (h : Programmed c c' a bs)
    (hx : x < a ∨ a + bs.length ≤ x) : c'.cells x = c.cells x := by
  rw [h.cells]
  rcases hx with hx | hx
  · rw [maskAt_of_lt hx, and_ff]
  · rw [maskAt_of_ge hx, and_ff]

end Chip

/-! ## Rewriting a range

To store a byte string over old contents, software erases the sectors it
covers, each before the first byte that lands in it, and programs the bytes
piece by piece.  `rewritten` is what the contents then are. -/

open Word

/-- The contents `f` with the sectors of a range at `a` erased, as many as
`bs` needs, and `bs` programmed there. -/
def rewritten (sector : Nat) (f : Nat → UInt8) (a : Nat) (bs : List UInt8) : Nat → UInt8 :=
  fun x =>
    if a ≤ x ∧ x < a + roundUp sector bs.length then (bs[x - a]?).getD 0xFF else f x

variable {sector word : Nat} {D : Driver sector word}
variable {f : Nat → UInt8} {a : Nat} {bs cs : List UInt8}

theorem rewritten_nil (hs : 0 < sector) : rewritten sector f a [] = f := by
  funext x
  have : roundUp sector ([] : List UInt8).length = 0 := roundUp_of_mod hs (Nat.zero_mod _)
  simp only [rewritten, this]
  rw [if_neg (by omega)]

theorem rewritten_holds (hs : 0 < sector) : Holds (rewritten sector f a bs) a bs := by
  intro i hi
  have := le_roundUp hs bs.length
  simp only [rewritten]
  rw [if_pos (by omega), show a + i - a = i by omega, getElem?_eq_getElem hi, Option.getD_some]

theorem rewritten_else {x : Nat} (hx : x < a ∨ a + roundUp sector bs.length ≤ x) :
    rewritten sector f a bs x = f x := by
  simp only [rewritten]
  rw [if_neg (by omega)]

/-- **One more piece.**  A piece that stays inside its sector, programmed
behind `bs` after erasing that sector if it starts there, extends the
rewritten range by its bytes. -/
theorem rewritten_append {c c₁ : Chip D} {g : Nat → UInt8} {k : Nat} (ha : a = k * sector)
    (hne : cs ≠ [])
    (hfit : bs.length % sector + cs.length ≤ sector) (hcells : c.cells = rewritten sector f a bs)
    (herase : if bs.length % sector = 0 then
        c.erase ((a + bs.length) / sector) = (true, c₁) else c₁.cells = c.cells)
    (hprog : ∀ x, g x = c₁.cells x &&& maskAt (a + bs.length) cs x) :
    g = rewritten sector f a (bs ++ cs) := by
  have hpos := length_pos_iff.mpr hne
  have hs : 0 < sector := by omega
  obtain ⟨q, r, hr, hlen⟩ : ∃ q r, r < sector ∧ bs.length = q * sector + r :=
    ⟨bs.length / sector, bs.length % sector, Nat.mod_lt _ hs, by
      rw [Nat.mul_comm]; exact (Nat.div_add_mod _ _).symm⟩
  have hmod : bs.length % sector = r := by
    rw [hlen, Nat.mul_comm, Nat.mul_add_mod, Nat.mod_eq_of_lt hr]
  rw [hmod] at hfit herase
  have hqs : q * sector % sector = 0 := Nat.mul_mod_left _ _
  -- The range grows exactly when a sector was erased.
  have hround : roundUp sector (bs ++ cs).length = q * sector + sector := by
    rw [length_append, hlen, Nat.add_assoc, roundUp_add_eq hs hqs,
      roundUp_of_le (by omega) hfit]
  have hold : roundUp sector bs.length = if r = 0 then q * sector else q * sector + sector := by
    rw [hlen, roundUp_add_eq hs hqs]
    split
    · rename_i h
      rw [h, roundUp_of_mod hs (Nat.zero_mod _), Nat.add_zero]
    · rw [roundUp_of_le (by omega) (by omega)]
  have hbefore : ∀ x, c₁.cells x =
      if a ≤ x ∧ x < a + (q * sector + sector) then (bs[x - a]?).getD 0xFF else f x := by
    intro x
    by_cases h0 : r = 0
    · rw [if_pos h0] at herase
      obtain ⟨hin, hout, -, -⟩ := Chip.erase_true herase
      have hsec : (a + bs.length) / sector = k + q := by
        rw [ha, hlen, h0, Nat.add_zero, ← Nat.add_mul, Nat.mul_div_cancel _ hs]
      rw [hsec] at hin hout
      by_cases hx : x / sector = k + q
      · have h₁ := Nat.div_mul_le_self x sector
        have h₂ := Nat.lt_div_mul_add hs (a := x)
        rw [hx, Nat.add_mul] at h₁ h₂
        rw [hin x hx, if_pos (by omega), getElem?_eq_none (by omega), Option.getD_none]
      · rw [hout x hx, hcells]
        simp only [rewritten, hold, if_pos h0]
        have hne : ¬ (a + q * sector ≤ x ∧ x < a + (q * sector + sector)) := by
          rintro ⟨h₁, h₂⟩
          apply hx
          rw [ha] at h₁ h₂
          rw [Nat.div_eq_iff hs]
          rw [Nat.add_mul]
          omega
        by_cases hx' : a ≤ x ∧ x < a + q * sector
        · rw [if_pos hx', if_pos (by omega)]
        · rw [if_neg hx', if_neg (by omega)]
    · rw [if_neg h0] at herase
      rw [herase, hcells]
      simp only [rewritten, hold, if_neg h0]
  funext x
  rw [hprog x, hbefore x]
  simp only [rewritten, hround]
  by_cases hx : a ≤ x ∧ x < a + (q * sector + sector)
  · rw [if_pos hx, if_pos hx]
    by_cases hlt : x - a < bs.length
    · rw [maskAt_of_lt (by omega), getElem?_append_left hlt, and_ff]
    · rw [getElem?_eq_none (by omega), Option.getD_none, ff_and,
        getElem?_append_right (by omega)]
      simp only [maskAt]
      rw [if_pos (by omega), show x - (a + bs.length) = x - a - bs.length by omega]
  · rw [if_neg hx, if_neg hx]
    have : x < a + bs.length ∨ a + bs.length + cs.length ≤ x := by omega
    rcases this with h | h
    · rw [maskAt_of_lt h, and_ff]
    · rw [maskAt_of_ge h, and_ff]

/-! ## A chip that fails on a schedule -/

/-- The driver of an ideal chip of `capacity` bytes whose `n`-th call fails,
without any effect, when `bad n` says so. -/
def scripted (sector word capacity : Nat) (bad : Nat → Bool) : Driver sector word where
  Dev := (Nat → UInt8) × Nat
  cells d := d.1
  capacity := capacity
  erase s d :=
    if bad d.2 = false ∧ s * sector + sector ≤ capacity then
      (true, fun a => if a / sector = s then 0xFF else d.1 a, d.2 + 1)
    else (false, d.1, d.2 + 1)
  program a bs d :=
    if bad d.2 = false ∧ a + bs.length ≤ capacity then
      (true, fun x => d.1 x &&& maskAt a bs x, d.2 + 1)
    else (false, d.1, d.2 + 1)
  read a n d :=
    if bad d.2 = false ∧ a + n ≤ capacity then
      (some ((List.range n).map fun i => d.1 (a + i)), d.1, d.2 + 1)
    else (none, d.1, d.2 + 1)
  erase_done := by
    intro s d d' h a ha
    split at h <;> simp_all [Prod.ext_iff]
    simp [← h.1, ha]
  erase_else := by
    intro s d ok d' h a ha
    split at h <;> simp_all [Prod.ext_iff]
    simp [← h.2.1, ha]
  erase_within := by
    intro s d d' h
    split at h <;> simp_all
  program_done := by
    intro a bs d d' _ _ h i hi
    split at h <;> simp_all [Prod.ext_iff]
    simp only [← h.1, maskAt_add hi]
  program_else := by
    intro a bs d ok d' _ _ h x hx
    split at h <;> simp_all [Prod.ext_iff]
    rcases hx with hx | hx
    · simp only [← h.2.1, maskAt_of_lt hx, and_ff]
    · simp only [← h.2.1, maskAt_of_ge hx, and_ff]
  program_within := by
    intro a bs d d' h
    split at h <;> simp_all
  read_done := by
    intro a n d bs d' h
    split at h <;> simp_all
  read_else := by
    intro a n d
    split <;> rfl
  read_within := by
    intro a n d bs d' h
    split at h <;> simp_all

end Nor
