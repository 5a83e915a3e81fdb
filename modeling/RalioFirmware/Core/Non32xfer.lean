import RalioFirmware.Basis.Lanes
import RalioFirmware.Basis.Word

/-!
# Loads and stores of bytes in a memory of words

The instruction RAM and the cached flash are read and written by words only.  The handler of the
exception that other accesses raise takes the instruction apart, does the access with a word, and
goes on behind the instruction.  It keeps its registers in a frame that has no place for `a1`.

The second half of the module is the instructions themselves, on a memory of bytes, and the proof
that the handler does what they do.
-/

open Word Lanes
open BitVec (eq_of_getLsbD_eq getLsbD_and getLsbD_extractLsb' getLsbD_setWidth)

namespace Non32xfer

def LOAD_MASK : BitVec 32 := 0x00f00f
def L8UI_MATCH : BitVec 32 := 0x000002
def L16UI_MATCH : BitVec 32 := 0x001002
def L16SI_MATCH : BitVec 32 := 0x009002
def S8I_MATCH : BitVec 32 := 0x004002
def S16I_MATCH : BitVec 32 := 0x005002

abbrev Memory := Nat → BitVec 32

/-- `__exception_frame`: a place in the code, and the registers without `a1`. -/
structure ExceptionFrame where
  epc : Nat
  a_reg : Nat → BitVec 32

/-- The option that validates addresses, and the ranges it knows. -/
structure Config where
  DEBUG_ESP_MMU : Bool
  mmu_is_iram : Nat → Bool
  mmu_is_icache : Nat → Bool

/-- `__EXCEPTION_HANDLER_PREAMBLE`: the instruction, out of two words of the code. -/
def instruction (mem : Memory) (epc : Nat) : BitVec 32 :=
  ((mem (epc / 4 + 1) ++ mem (epc / 4)) >>> (8 * (epc % 4))).setWidth 32

/-- The mask for the value, and whether it is read; none for another instruction. -/
def access (what : BitVec 32) : Option (BitVec 32 × Bool) :=
  if L8UI_MATCH = what ∨ S8I_MATCH = what then some (0xff, S8I_MATCH ≠ what)
  else if L16UI_MATCH = what ∨ L16SI_MATCH = what ∨ S16I_MATCH = what then
    some (0xffff, S16I_MATCH ≠ what)
  else none

def Config.admits (c : Config) (is_read : Bool) (excvaddr : Nat) : Bool :=
  !c.DEBUG_ESP_MMU || (c.mmu_is_iram excvaddr || (is_read && c.mmu_is_icache excvaddr))

def loaded (what valmask mem_val : BitVec 32) (pos : Nat) : BitVec 32 :=
  let mem_val := (mem_val >>> pos) &&& valmask
  if what = L16SI_MATCH ∧ mem_val &&& 0x8000 ≠ 0 then mem_val ||| 0xffff0000 else mem_val

def merged (valmask mem_val val : BitVec 32) (pos : Nat) : BitVec 32 :=
  let val := val <<< pos
  let valmask := valmask <<< pos
  let val := val &&& valmask
  (mem_val &&& ~~~valmask) ||| val

/-- `non32xfer_exception_handler`; none if it gives the access up to the handler before. -/
def handler (c : Config) (mem : Memory) (ef : ExceptionFrame) (excvaddr : Nat) :
    Option (Memory × ExceptionFrame) :=
  let insn := instruction mem ef.epc
  let what := insn &&& LOAD_MASK
  match access what with
  | none => none
  | some (valmask, is_read) =>
    let regno := ((insn &&& 0x0000f0) >>> 4).toNat
    if regno = 1 then none
    else
      let regno := if regno ≠ 0 then regno - 1 else regno
      if c.admits is_read excvaddr then
        let pos := 8 * (excvaddr % 4)
        let mem_val := mem (excvaddr / 4)
        if is_read then
          let mem_val := loaded what valmask mem_val pos
          some (mem, ⟨u32 (ef.epc + 3), Function.update ef.a_reg regno mem_val⟩)
        else
          let mem_val := merged valmask mem_val (ef.a_reg regno) pos
          some (Function.update mem (excvaddr / 4) mem_val, { ef with epc := u32 (ef.epc + 3) })
      else none

/-! ## The instructions -/

/-- The loads and stores of less than a word; the processor has no load of a signed byte. -/
inductive Op
  | l8ui
  | l16ui
  | l16si
  | s8i
  | s16i
deriving DecidableEq

namespace Op

/-- By the fields `op0` and `r` of the instruction. -/
def ofFields (op0 r : BitVec 4) : Option Op :=
  if op0 = 2 then
    if r = 0 then some l8ui
    else if r = 1 then some l16ui
    else if r = 9 then some l16si
    else if r = 4 then some s8i
    else if r = 5 then some s16i
    else none
  else none

def bytes : Op → Nat
  | l8ui | s8i => 1
  | l16ui | l16si | s16i => 2

def isLoad : Op → Bool
  | l8ui | l16ui | l16si => true
  | s8i | s16i => false

end Op

/-- The processor: where it is, its registers and its memory of bytes. -/
structure Machine where
  pc : Nat
  a : Nat → BitVec 32
  mem : Nat → BitVec 8

def decode (mem : Nat → BitVec 8) (pc : Nat) : Option (Op × Nat) :=
  (Op.ofFields ((mem pc).extractLsb' 0 4) ((mem (pc + 1)).extractLsb' 4 4)).map fun op =>
    (op, ((mem pc).extractLsb' 4 4).toNat)

def Op.value (mem : Nat → BitVec 8) (vaddr : Nat) : Op → BitVec 32
  | l16ui => (mem (vaddr + 1) ++ mem vaddr).setWidth 32
  | l16si => (mem (vaddr + 1) ++ mem vaddr).signExtend 32
  | _ => (mem vaddr).setWidth 32

def Op.stored (op : Op) (mem : Nat → BitVec 8) (vaddr : Nat) (val : BitVec 32) : Nat → BitVec 8 :=
  fun x => if vaddr ≤ x ∧ x < vaddr + op.bytes then lane val (x - vaddr) else mem x

def execute (op : Op) (t vaddr : Nat) (s : Machine) : Machine :=
  if op.isLoad then
    ⟨u32 (s.pc + 3), Function.update s.a t (op.value s.mem vaddr), s.mem⟩
  else ⟨u32 (s.pc + 3), s.a, op.stored s.mem vaddr (s.a t)⟩

def place (t : Nat) : Nat := if t ≠ 0 then t - 1 else t

def machine (sp : BitVec 32) (mem : Memory) (ef : ExceptionFrame) : Machine where
  pc := ef.epc
  a t := if t = 1 then sp else ef.a_reg (place t)
  mem := flat mem

/-! ## Taking the instruction apart -/

theorem lane_instruction (mem : Memory) (epc : Nat) {i : Nat} (hi : i < 4) :
    lane (instruction mem epc) i = flat mem (epc + i) := by
  rw [instruction, lane_shift _ _ _ hi, flat]
  split
  · have hword : (epc + i) / 4 = epc / 4 := by omega
    have hbyte : (epc + i) % 4 = epc % 4 + i := by omega
    rw [hword, hbyte]
  · have hword : (epc + i) / 4 = epc / 4 + 1 := by omega
    have hbyte : (epc + i) % 4 = epc % 4 + i - 4 := by omega
    rw [hword, hbyte]

theorem extract_lane (w : BitVec 32) (i : Nat) {j : Nat} (hj : j ≤ 4) :
    (lane w i).extractLsb' j 4 = w.extractLsb' (8 * i + j) 4 := by
  apply eq_of_getLsbD_eq
  intro k hk
  have hin : j + k < 8 := by omega
  rw [lane, getLsbD_extractLsb', getLsbD_extractLsb', getLsbD_extractLsb',
    decide_eq_true hk, decide_eq_true hin, Bool.true_and, Bool.true_and, Bool.true_and,
    Nat.add_assoc]

theorem getLsbD_mask : ∀ i < 32, LOAD_MASK.getLsbD i = decide (i < 4 ∨ 12 ≤ i ∧ i < 16) := by
  decide

theorem what_eq (insn : BitVec 32) :
    insn &&& LOAD_MASK =
      (insn.extractLsb' 0 4).setWidth 32 ||| ((insn.extractLsb' 12 4).setWidth 32 <<< 12) := by
  apply eq_of_getLsbD_eq
  intro i hi
  rw [getLsbD_and, getLsbD_mask i hi, BitVec.getLsbD_or, getLsbD_setWidth,
    getLsbD_extractLsb', BitVec.getLsbD_shiftLeft, getLsbD_setWidth,
    getLsbD_extractLsb', decide_eq_true hi, Bool.true_and, Bool.true_and, Nat.zero_add]
  by_cases hop : i < 4
  · have hlow : i < 12 := by omega
    simp [hop, hlow]
  · by_cases hlow : i < 12
    · simp [hop, hlow, Nat.not_le.mpr hlow]
    · by_cases hr : i < 16
      · have hfield : i - 12 < 4 := by omega
        have hplace : 12 + (i - 12) = i := by omega
        have hwidth : i - 12 < 32 := by omega
        simp [hop, hlow, hr, hfield, hplace, hwidth, Nat.le_of_not_lt hlow]
      · have hfield : ¬ i - 12 < 4 := by omega
        simp [hop, hlow, hr, hfield]

theorem access_eq : ∀ op0 r : BitVec 4,
    access (op0.setWidth 32 ||| (r.setWidth 32 <<< 12)) =
      (Op.ofFields op0 r).map fun op => (lowBits (8 * op.bytes), op.isLoad) := by
  decide

theorem what_l16si : ∀ op0 r : BitVec 4, ∀ op, Op.ofFields op0 r = some op →
    (op0.setWidth 32 ||| (r.setWidth 32 <<< 12) = L16SI_MATCH ↔ op = .l16si) := by
  decide

theorem regno_eq (insn : BitVec 32) :
    ((insn &&& 0x0000f0) >>> 4).toNat = (insn.extractLsb' 4 4).toNat := by
  have hmask : (insn &&& 0x0000f0) >>> 4 = (insn >>> 4) &&& lowBits 4 := by
    rw [BitVec.ushiftRight_and_distrib]
    rfl
  rw [hmask, shift_mask, BitVec.toNat_setWidth]
  exact Nat.mod_eq_of_lt (Nat.lt_trans (insn.extractLsb' 4 4).isLt (by decide))

/-- **The fields of the code** are those of the instruction. -/
theorem decode_eq (mem : Memory) (epc : Nat) :
    decode (flat mem) epc =
      (Op.ofFields ((instruction mem epc).extractLsb' 0 4)
        ((instruction mem epc).extractLsb' 12 4)).map fun op =>
          (op, ((instruction mem epc).extractLsb' 4 4).toNat) := by
  have hfirst : lane (instruction mem epc) 0 = flat mem epc :=
    @lane_instruction mem epc 0 (by decide)
  have hsecond : lane (instruction mem epc) 1 = flat mem (epc + 1) :=
    @lane_instruction mem epc 1 (by decide)
  rw [decode, ← hfirst, ← hsecond, extract_lane _ _ (by decide), extract_lane _ _ (by decide),
    extract_lane _ _ (by decide)]

/-! ## The values -/

theorem signExtend_half (x : BitVec 16) :
    (if x.setWidth 32 &&& 0x8000 ≠ 0 then x.setWidth 32 ||| 0xffff0000 else x.setWidth 32) =
      x.signExtend 32 := by
  have hbits : ∀ i < 32, (0xffff0000 : BitVec 32).getLsbD i = decide (16 ≤ i) := by decide
  have hsign : ∀ i < 32, (0x8000 : BitVec 32).getLsbD i = decide (i = 15) := by decide
  have htest : (x.setWidth 32 &&& 0x8000) ≠ (0 : BitVec 32) ↔ x.getLsbD 15 = true := by
    constructor
    · intro hne
      by_contra hclear
      refine hne (eq_of_getLsbD_eq fun i hi => ?_)
      rw [getLsbD_and, hsign i hi, getLsbD_setWidth]
      by_cases hi15 : i = 15
      · subst hi15
        rw [Bool.eq_false_iff.mpr hclear]
        rfl
      · simp [hi15]
    · intro hset hzero
      have hbit := congrArg (fun w => w.getLsbD 15) hzero
      simp only [getLsbD_and, getLsbD_setWidth, hsign 15 (by decide), hset] at hbit
      exact absurd hbit (by decide)
  apply eq_of_getLsbD_eq
  intro i hi
  rw [BitVec.getLsbD_signExtend, decide_eq_true hi, Bool.true_and]
  have hmsb : x.msb = x.getLsbD 15 := rfl
  by_cases hset : x.getLsbD 15 = true
  · rw [if_pos (htest.mpr hset), BitVec.getLsbD_or, hbits i hi, getLsbD_setWidth,
      decide_eq_true hi, Bool.true_and, hmsb, hset]
    by_cases hlow : i < 16
    · simp [hlow, Nat.not_le.mpr hlow]
    · simp [hlow, Nat.le_of_not_lt hlow]
  · rw [if_neg fun hne => hset (htest.mp hne), getLsbD_setWidth, decide_eq_true hi,
      Bool.true_and, hmsb, Bool.eq_false_iff.mpr hset]
    by_cases hlow : i < 16
    · simp [hlow]
    · rw [BitVec.getLsbD_of_ge x i (Nat.le_of_not_lt hlow)]
      simp [hlow]

variable {vaddr : Nat}

theorem half_eq (mem : Memory) (heven : vaddr % 2 = 0) :
    (mem (vaddr / 4)).extractLsb' (8 * (vaddr % 4)) 16 = flat mem (vaddr + 1) ++
        flat mem vaddr := by
  have hword : (vaddr + 1) / 4 = vaddr / 4 := by omega
  have hbyte : (vaddr + 1) % 4 = vaddr % 4 + 1 := by omega
  rw [extract_half, flat, flat, hword, hbyte]

/-- **A load** takes the value from the memory of bytes. -/
theorem loaded_eq {op : Op} (hload : op.isLoad = true) (mem : Memory)
    (haligned : vaddr % op.bytes = 0) {what : BitVec 32}
        (hwhat : what = L16SI_MATCH ↔ op = .l16si) :
    loaded what (lowBits (8 * op.bytes)) (mem (vaddr / 4)) (8 * (vaddr % 4)) =
      op.value (flat mem) vaddr := by
  rw [loaded, shift_mask]
  cases op with
  | l8ui =>
    rw [if_neg fun h => nomatch hwhat.mp h.1]
    rfl
  | l16ui =>
    have hhalf := half_eq mem haligned
    rw [if_neg fun h => nomatch hwhat.mp h.1]
    exact congrArg (BitVec.setWidth 32) hhalf
  | l16si =>
    have hhalf := half_eq mem haligned
    have hsign := signExtend_half (flat mem (vaddr + 1) ++ flat mem vaddr)
    rw [← hhalf] at hsign
    simp only [hwhat.mpr rfl, true_and]
    refine hsign.trans ?_
    rw [hhalf]
    rfl
  | s8i => cases hload
  | s16i => cases hload

/-- **A store** changes the bytes of the access and no other. -/
theorem merged_eq (op : Op) (mem : Memory) (haligned : vaddr % op.bytes = 0)
    (val : BitVec 32) :
    flat (Function.update mem (vaddr / 4)
      (merged (lowBits (8 * op.bytes)) (mem (vaddr / 4)) val (8 * (vaddr % 4)))) =
        op.stored (flat mem) vaddr val := by
  have hin : vaddr % 4 + op.bytes ≤ 4 := by
    cases op with
    | l8ui | s8i => exact Nat.mod_lt vaddr (by decide)
    | l16ui | l16si | s16i =>
      have heven : vaddr % 2 = 0 := haligned
      show vaddr % 4 + 2 ≤ 4
      omega
  funext x
  have hmerge : merged (lowBits (8 * op.bytes)) (mem (vaddr / 4)) val (8 * (vaddr % 4)) =
    merge (mem (vaddr / 4)) val (8 * (vaddr % 4)) (8 * op.bytes) := rfl
  rw [flat_update, hmerge, Op.stored]
  by_cases hword : x / 4 = vaddr / 4
  · rw [if_pos hword, lane_merge (Nat.mod_lt x (by decide)), flat, hword]
    have hiff : (vaddr % 4 ≤ x % 4 ∧ x % 4 < vaddr % 4 + op.bytes) ↔
        (vaddr ≤ x ∧ x < vaddr + op.bytes) := by omega
    by_cases hbyte : vaddr ≤ x ∧ x < vaddr + op.bytes
    · have hplace : x % 4 - vaddr % 4 = x - vaddr := by omega
      rw [if_pos (hiff.mpr hbyte), if_pos hbyte, hplace]
    · rw [if_neg fun h => hbyte (hiff.mp h), if_neg hbyte]
  · rw [if_neg hword, if_neg (by omega)]

/-! ## The handler -/

theorem machine_update (sp : BitVec 32) (mem : Memory) (ef : ExceptionFrame) {t : Nat} (ht : t ≠ 1)
    (pc : Nat) (val : BitVec 32) :
    machine sp mem ⟨pc, Function.update ef.a_reg (place t) val⟩ =
      ⟨pc, Function.update (machine sp mem ef).a t val, flat mem⟩ := by
  unfold machine
  congr 1
  funext u
  simp only [Function.update_apply]
  by_cases hu : u = 1
  · subst hu
    rw [if_pos rfl, if_neg (Ne.symm ht), if_pos rfl]
  · rw [if_neg hu, if_neg hu]
    have hplace : place u = place t ↔ u = t := by
      unfold place
      split <;> split <;> omega
    by_cases hsame : u = t
    · rw [if_pos hsame, if_pos (hplace.mpr hsame)]
    · rw [if_neg hsame, if_neg fun h => hsame (hplace.mp h)]

def Config.InRange (c : Config) (op : Op) (vaddr : Nat) : Prop :=
  c.DEBUG_ESP_MMU = true →
    c.mmu_is_iram vaddr = true ∨ (op.isLoad = true ∧ c.mmu_is_icache vaddr = true)

theorem Config.InRange.admits {c : Config} {op : Op} (h : c.InRange op vaddr) :
    c.admits op.isLoad vaddr = true := by
  unfold Config.admits
  cases hdebug : c.DEBUG_ESP_MMU with
  | false => rfl
  | true =>
    rcases h hdebug with hiram | ⟨hload, hicache⟩
    · simp [hiram]
    · simp [hload, hicache]

theorem handler_eq (c : Config) (mem : Memory) (ef : ExceptionFrame) {t : Nat} {op : Op}
    (hdecode : decode (flat mem) ef.epc = some (op, t)) (hrange : c.InRange op vaddr) :
    handler c mem ef vaddr =
      if t = 1 then none
      else if op.isLoad then
        some (mem, ⟨u32 (ef.epc + 3), Function.update ef.a_reg (place t)
          (loaded (instruction mem ef.epc &&& LOAD_MASK) (lowBits (8 * op.bytes)) (mem (vaddr / 4))
            (8 * (vaddr % 4)))⟩)
      else
        some (Function.update mem (vaddr / 4) (merged (lowBits (8 * op.bytes)) (mem (vaddr / 4))
          (ef.a_reg (place t)) (8 * (vaddr % 4))), { ef with epc := u32 (ef.epc + 3) }) := by
  rw [decode_eq] at hdecode
  obtain ⟨op', hfields, hpair⟩ := Option.map_eq_some_iff.mp hdecode
  obtain ⟨rfl, hregister⟩ := Prod.mk.inj hpair
  have haccess : access (instruction mem ef.epc &&& LOAD_MASK) =
      some (lowBits (8 * op'.bytes), op'.isLoad) := by
    rw [what_eq, access_eq, hfields, Option.map_some]
  simp only [handler, haccess, regno_eq, hregister, hrange.admits, if_true, place]

/-- **The emulation**: for every address of the range and whatever the memory holds, the handler
does what the instruction does on a memory of bytes, and goes on behind it; but for an access with
`a1`, which it gives up. -/
theorem handler_executes (c : Config) (mem : Memory) (ef : ExceptionFrame) (sp : BitVec 32)
    {vaddr t : Nat} {op : Op} (hdecode : decode (flat mem) ef.epc = some (op, t))
    (haligned : vaddr % op.bytes = 0) (hrange : c.InRange op vaddr) :
    (t ≠ 1 → ∃ mem' ef', handler c mem ef vaddr = some (mem', ef') ∧
      machine sp mem' ef' = execute op t vaddr (machine sp mem ef)) ∧
    (t = 1 → handler c mem ef vaddr = none) := by
  rw [handler_eq c mem ef hdecode hrange]
  constructor
  · intro ht
    rw [if_neg ht]
    have hregister : (machine sp mem ef).a t = ef.a_reg (place t) := if_neg ht
    cases hload : op.isLoad with
    | true =>
      rw [if_pos rfl]
      refine ⟨_, _, rfl, ?_⟩
      have hwhat : instruction mem ef.epc &&& LOAD_MASK = L16SI_MATCH ↔ op = .l16si := by
        rw [decode_eq] at hdecode
        obtain ⟨op', hfields, hpair⟩ := Option.map_eq_some_iff.mp hdecode
        obtain ⟨rfl, -⟩ := Prod.mk.inj hpair
        rw [what_eq]
        exact what_l16si _ _ _ hfields
      rw [loaded_eq hload mem haligned hwhat, machine_update sp mem ef ht, execute, hload,
        if_pos rfl]
      rfl
    | false =>
      rw [if_neg Bool.false_ne_true]
      refine ⟨_, _, rfl, ?_⟩
      rw [execute, hload, if_neg Bool.false_ne_true, hregister]
      have hmem := merged_eq op mem haligned (ef.a_reg (place t))
      show Machine.mk _ _ (flat _) = Machine.mk _ _ (op.stored (flat mem) vaddr _)
      rw [hmem]
      rfl
  · intro ht
    rw [if_pos ht]

def sample : Memory := fun i => if i = 0 then 0x00009232 else 0xfffe1234

theorem handler_executes_sample :
    ∃ mem' ef', handler ⟨false, fun _ => false, fun _ => false⟩ sample ⟨0, fun _ => 0⟩ 6 =
        some (mem', ef') ∧
      machine 0 mem' ef' = execute .l16si 3 6 (machine 0 sample ⟨0, fun _ => 0⟩) :=
  (@handler_executes ⟨false, fun _ => false, fun _ => false⟩ sample ⟨0, fun _ => 0⟩ 0 6 3 .l16si
    (by decide) (by decide) (fun h => nomatch h)).1 (by decide)

/-- `l8ui a1, a2, 0` is given up. -/
theorem not_handler_executes :
    ¬ ∀ (c : Config) (mem : Memory) (ef : ExceptionFrame) (vaddr t : Nat) (op : Op),
      decode (flat mem) ef.epc = some (op, t) → vaddr % op.bytes = 0 → c.InRange op vaddr →
        (handler c mem ef vaddr).isSome = true := by
  intro h
  have hsome := h ⟨false, fun _ => false, fun _ => false⟩ (fun _ => 0x00000212) ⟨0, fun _ => 0⟩ 4 1
    .l8ui (by decide) (by decide) (fun h => nomatch h)
  exact absurd hsome (by decide)

end Non32xfer
