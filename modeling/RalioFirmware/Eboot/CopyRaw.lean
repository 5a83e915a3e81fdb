import RalioFirmware.Basis.Crash
import RalioFirmware.Eboot.Command

/-!
# `copy_raw`

The boot loader's copy, a program over the SPI calls and RTC memory.  A boot
can be cut at any point; a call cut short leaves the sector or the range it
was called for in any state and everything else alone.

The specifications are `wp`s: the crash condition says what is untouched
wherever the copy is cut, the postcondition what a result means.
-/

open Word Bytes Nor Nor.Chip Crash Crash.Prog

namespace Eboot

variable {F : SpiFlash}

structure Board (F : SpiFlash) where
  chip : Esp.Chip F
  rtc : Rtc

/-- The calls of the boot loader: the ROM's SPI functions and its accesses to
RTC memory. -/
inductive RomOp
  | SPIRead (addr size : Nat)
  | SPIEraseSector (sector : Nat)
  | SPIWrite (addr : Nat) (src : List UInt8)
  | rtcLoad
  | rtcStore (i value : Nat)

/-- The results; those of the SPI functions say whether they succeeded. -/
abbrev RomOp.Res : RomOp → Type
  | .SPIRead _ _ => Option (List UInt8)
  | .SPIEraseSector _ => Bool
  | .SPIWrite _ _ => Bool
  | .rtcLoad => Rtc
  | .rtcStore _ _ => Unit

def RomOp.exec : (o : RomOp) → Board F → o.Res × Board F
  | .SPIRead addr size, b => ((b.chip.read addr size).1,
      { b with chip := (b.chip.read addr size).2 })
  | .SPIEraseSector sector, b =>
    ((b.chip.erase sector).1, { b with chip := (b.chip.erase sector).2 })
  | .SPIWrite addr src, b =>
    ((b.chip.program addr src).1, { b with chip := (b.chip.program addr src).2 })
  | .rtcLoad, b => (b.rtc, b)
  | .rtcStore i value, b => ((), { b with rtc := fun j => if j = i then value else b.rtc j })

def RomOp.Torn (o : RomOp) (b b' : Board F) : Prop :=
  b'.rtc = b.rtc ∧
    match o with
    | .SPIEraseSector sector => ∀ x, x / 4096 ≠ sector → b'.chip.cells x = b.chip.cells x
    | .SPIWrite addr src =>
      ∀ x, x < addr ∨ addr + src.length ≤ x → b'.chip.cells x = b.chip.cells x
    | _ => b'.chip.cells = b.chip.cells

def rom (F : SpiFlash) : Machine (Board F) := ⟨RomOp, RomOp.Res, RomOp.exec, RomOp.Torn⟩

def SPIRead (addr size : Nat) : Prog (rom F) (Option (List UInt8)) :=
  perform (M := rom F) (.SPIRead addr size)
def SPIEraseSector (sector : Nat) : Prog (rom F) Bool :=
  perform (M := rom F) (.SPIEraseSector sector)
def SPIWrite (addr : Nat) (src : List UInt8) : Prog (rom F) Bool :=
  perform (M := rom F) (.SPIWrite addr src)
def rtcLoad : Prog (rom F) Rtc := perform (M := rom F) .rtcLoad
def rtcStore (i value : Nat) : Prog (rom F) Unit := perform (M := rom F) (.rtcStore i value)

/-- The decompressor of `uzlib`, a library outside the repository: its state
and the two calls `copy_raw` makes after initialising it for a source
address.  `TINF_OK` is 0, `TINF_DONE` 1. -/
structure Uzlib (F : SpiFlash) where
  State : Type
  init : Nat → State
  gzipParseHeader : State → Prog (rom F) (Int × State)
  uncompress : State → Nat → Prog (rom F) (Int × List UInt8 × State)

/-- What a boot finds besides flash and RTC memory: the decompressor, and
what the buffer of `read_flash_byte` happens to hold. -/
structure BootEnv (F : SpiFlash) where
  uzlib : Uzlib F
  stack : Nat → UInt8

/-- `read_flash_byte`: the result of the read is not looked at. -/
def readFlashByte (env : BootEnv F) (addr : Nat) : Prog (rom F) UInt8 := do
  match ← SPIRead (clearLow 2 addr) 4 with
  | some buff => pure (buff.getD (addr &&& 3) 0)
  | none => pure (env.stack addr)

/-- The first half of a round of `copy_raw`: the next sector's contents, or
the error. -/
def fetchSector (U : Uzlib F) (gzip : Option U.State) (saddr : Nat) (left : Int) :
    Prog (rom F) (Except Nat (List UInt8 × Option U.State)) :=
  match gzip with
  | none => do
    match ← SPIRead saddr 4096 with
    | none => pure (.error 3)
    | some buffer => pure (.ok (buffer, none))
  | some m_uncomp => do
    let to_read := if left > 4096 then 4096 else left.toNat
    let (res, buffer, m_uncomp) ← U.uncompress m_uncomp to_read
    if res ≠ 1 ∧ res ≠ 0 then pure (.error 6)
    else pure (.ok (buffer.take to_read ++ List.replicate (4096 - to_read) 0xff, some m_uncomp))

/-- Whether the sector need not be written: the boot loader's own, when it
already holds `buffer`. -/
def skipSector (daddr : Nat) (buffer : List UInt8) : Prog (rom F) (Except Nat Bool) :=
  if daddr = 0 then do
    match ← SPIRead daddr 4096 with
    | none => pure (.error 4)
    | some buffer2 => pure (.ok (buffer2 = buffer))
  else pure (.ok false)

def rewriteSector (daddr : Nat) (buffer : List UInt8) : Prog (rom F) Nat := do
  if ← SPIEraseSector (daddr / 4096) then
    if ← SPIWrite daddr buffer then pure 0 else pure 4
  else pure 2

/-- The second half of a round: the sector is compared or written. -/
def storeSector (verify : Bool) (daddr : Nat) (buffer : List UInt8) : Prog (rom F) Nat :=
  if verify then do
    match ← SPIRead daddr 4096 with
    | none => pure 4
    | some buffer2 => if buffer ≠ buffer2 then pure 9 else pure 0
  else do
    match ← skipSector daddr buffer with
    | .error res => pure res
    | .ok true => pure 0
    | .ok false => rewriteSector daddr buffer

/-- The loop of `copy_raw`. -/
def copyLoop (U : Uzlib F) (verify : Bool) :
    Nat → Option U.State → Nat → Nat → Int → Prog (rom F) Nat
  | 0, _, _, _, _ => pure 0
  | rounds+1, gzip, saddr, daddr, left =>
    if left > 0 then do
      match ← fetchSector U gzip saddr left with
      | .error res => pure res
      | .ok (buffer, gzip) =>
        let res ← storeSector verify daddr buffer
        if res ≠ 0 then pure res
        else copyLoop U verify rounds gzip (u32 (saddr + 4096)) (u32 (daddr + 4096)) (left - 4096)
    else pure 0

/-- A 32-bit number as an `int32_t`. -/
def int32 (n : Nat) : Int := if n < 0x80000000 then n else n - 0x100000000

def isGzip (env : BootEnv F) (saddr : Nat) : Prog (rom F) Bool := do
  if (← readFlashByte env saddr) = 0x1f then
    pure ((← readFlashByte env (u32 (saddr + 1))) = 0x8b)
  else pure false

/-- `copy_raw`.  Every round takes a sector off `left`. -/
def copyRaw (env : BootEnv F) (src_addr dst_addr size : Nat) (verify : Bool) :
    Prog (rom F) Nat := do
  if src_addr &&& 0xfff ≠ 0 ∨ dst_addr &&& 0xfff ≠ 0 then pure 1
  else
    let left := int32 (clearLow 12 (u32 (size + 4096 - 1)))
    if ← isGzip env src_addr then
      let b0 ← readFlashByte env (sub32 (u32 (src_addr + size)) 4)
      let b1 ← readFlashByte env (sub32 (u32 (src_addr + size)) 3)
      let b2 ← readFlashByte env (sub32 (u32 (src_addr + size)) 2)
      let b3 ← readFlashByte env (sub32 (u32 (src_addr + size)) 1)
      let left := int32 (ofLe [b0, b1, b2, b3])
      let (res, m_uncomp) ← env.uzlib.gzipParseHeader (env.uzlib.init src_addr)
      if res ≠ 0 then pure 5
      else copyLoop env.uzlib verify (left.toNat / 4096 + 1) (some m_uncomp) src_addr dst_addr left
    else copyLoop env.uzlib verify (left.toNat / 4096 + 1) none src_addr dst_addr left

/-! ## What the calls do -/

/-- Everything but the `n` bytes from address `a` is as it was. -/
def Frame (a n : Nat) (b b' : Board F) : Prop :=
  b'.rtc = b.rtc ∧ ∀ x, x < a ∨ a + n ≤ x → b'.chip.cells x = b.chip.cells x

variable {b' : Board F}

section

variable {C : Board F → Prop} {b : Board F} {addr n : Nat}

theorem Frame.refl (a n : Nat) (b : Board F) : Frame a n b b := ⟨rfl, fun _ _ => rfl⟩

theorem Frame.trans {b'' : Board F} (h : Frame addr n b b') (h' : Frame addr n b' b'') :
    Frame addr n b b'' :=
  ⟨h'.1.trans h.1, fun x hx => (h'.2 x hx).trans (h.2 x hx)⟩

theorem frame_of_cells (a n : Nat) (hr : b'.rtc = b.rtc)
    (hc : b'.chip.cells = b.chip.cells) : Frame a n b b' :=
  ⟨hr, fun _ _ => by rw [hc]⟩

theorem wp_SPIRead {Q : Option (List UInt8) → Board F → Prop}
    (hC : ∀ b', b'.rtc = b.rtc → b'.chip.cells = b.chip.cells → C b')
    (hQ : ∀ r b', b'.rtc = b.rtc → b'.chip.cells = b.chip.cells →
      (∀ bytes, r = some bytes → bytes = slice b.chip.cells addr n ∧
        b'.chip.faults = b.chip.faults ∧ addr + n ≤ F.capacity) →
      (r = none → b'.chip.faults = b.chip.faults + 1) → Q r b') :
    wp C Q (SPIRead addr n) b := by
  have hcells := read_cells addr n b.chip
  refine wp_perform (hC b rfl rfl) (fun b' ht => hC b' ht.1 ht.2) (hC _ rfl hcells)
    (hQ _ _ rfl hcells ?_ ?_)
  · intro bytes hr
    obtain ⟨hb, -, hf, hcap⟩ := read_some (Prod.ext hr rfl : b.chip.read addr n = (some bytes, _))
    exact ⟨hb, hf, hcap⟩
  · intro hr
    exact (read_none (Prod.ext hr rfl : b.chip.read addr n = (none, _))).2

variable {Q : Bool → Board F → Prop}

theorem wp_SPIEraseSector (ha : addr % 4096 = 0)
    (hC : ∀ b', Frame addr 4096 b b' → C b')
    (hQ : ∀ ok b', Frame addr 4096 b b' →
      (ok = true → Blank b'.chip.cells addr 4096 ∧ b'.chip.faults = b.chip.faults ∧
        addr + 4096 ≤ F.capacity) →
      (ok = false → b'.chip.faults = b.chip.faults + 1) → Q ok b') :
    wp C Q (SPIEraseSector (addr / 4096)) b := by
  have hframe : ∀ b' : Board F, b'.rtc = b.rtc →
      (∀ x, x / 4096 ≠ addr / 4096 → b'.chip.cells x = b.chip.cells x) → Frame addr 4096 b b' :=
    fun b' hr h => ⟨hr, fun x hx => h x (by omega)⟩
  have hexec : ∀ x, x / 4096 ≠ addr / 4096 →
      (b.chip.erase (addr / 4096)).2.cells x = b.chip.cells x := by
    cases h : b.chip.erase (addr / 4096) with
    | mk ok c =>
      cases ok with
      | true => exact (erase_true h).2.1
      | false => exact (erase_false h).1
  refine wp_perform (hC b (Frame.refl _ _ _)) (fun b' ht => hC b' (hframe b' ht.1 ht.2))
    (hC _ (hframe _ rfl hexec)) (hQ _ _ (hframe _ rfl hexec) ?_ ?_)
  · intro hok
    obtain ⟨hin, -, hf, hcap⟩ := erase_true
      (Prod.ext hok rfl : b.chip.erase (addr / 4096) = (true, _))
    exact ⟨fun i hi => hin _ (by omega), hf, by omega⟩
  · intro hok
    exact (erase_false (Prod.ext hok rfl : b.chip.erase (addr / 4096) = (false, _))).2

theorem wp_SPIWrite {src : List UInt8} (ha : addr % 4 = 0)
    (hs : src.length % 4 = 0) (hC : ∀ b', Frame addr src.length b b' → C b')
    (hQ : ∀ ok b', Frame addr src.length b b' →
      (ok = true → (Blank b.chip.cells addr src.length → Holds b'.chip.cells addr src) ∧
        b'.chip.faults = b.chip.faults) →
      (ok = false → b'.chip.faults = b.chip.faults + 1) → Q ok b') :
    wp C Q (SPIWrite addr src) b := by
  have hexec : Frame addr src.length b { b with chip := (b.chip.program addr src).2 } := by
    refine ⟨rfl, ?_⟩
    show ∀ x, _ → (b.chip.program addr src).2.cells x = _
    cases h : b.chip.program addr src with
    | mk ok c =>
      cases ok with
      | true => exact (program_true ha hs h).2.1
      | false => exact (program_false ha hs h).1
  refine wp_perform (hC b (Frame.refl _ _ _)) (fun b' ht => hC b' ⟨ht.1, ht.2⟩) (hC _ hexec)
    (hQ _ _ hexec ?_ ?_)
  · intro hok
    have h : b.chip.program addr src = (true, _) := Prod.ext hok rfl
    exact ⟨program_blank ha hs h, (program_true ha hs h).2.2.1⟩
  · intro hok
    exact (program_false ha hs (Prod.ext hok rfl : b.chip.program addr src = (false, _))).2

end

/-! ## What the copy does -/

/-- What writing a sector comes to: on 0 it holds its bytes, any other result
comes from a failed call. -/
def Stored (daddr : Nat) (buffer : List UInt8) (b : Board F) (res : Nat) (b' : Board F) : Prop :=
  Frame daddr 4096 b b' ∧
    (res = 0 → Holds b'.chip.cells daddr buffer ∧ b'.chip.faults = b.chip.faults ∧
      daddr + 4096 ≤ F.capacity) ∧
    (res ≠ 0 → b.chip.faults < b'.chip.faults)

variable {daddr : Nat} {buffer : List UInt8}

theorem rewriteSector_spec (ha : daddr % 4096 = 0) (hlen : buffer.length = 4096) (b : Board F) :
    wp (Frame daddr 4096 b) (Stored daddr buffer b) (rewriteSector daddr buffer) b := by
  refine wp_bind (wp_SPIEraseSector ha (fun b' h => h) fun ok b₁ h₁ hok hbad => ?_)
  cases ok with
  | false =>
    have := hbad rfl
    exact wp_ret h₁ ⟨h₁, by simp, fun _ => by omega⟩
  | true =>
    obtain ⟨hblank, hf₁, hcap⟩ := hok rfl
    have hblank : Blank b₁.chip.cells daddr buffer.length := by rw [hlen]; exact hblank
    refine wp_bind (wp_SPIWrite (by omega) (by omega) (fun b' h => ?_)
      fun ok b₂ h₂ hok hbad => ?_)
    · exact h₁.trans (hlen ▸ h)
    · have hframe := h₁.trans (hlen ▸ h₂)
      cases ok with
      | false =>
        have := hbad rfl
        exact wp_ret hframe ⟨hframe, by simp, fun _ => by omega⟩
      | true =>
        obtain ⟨hholds, hf₂⟩ := hok rfl
        exact wp_ret hframe ⟨hframe, fun _ => ⟨hholds hblank, by omega, hcap⟩, by simp⟩

theorem storeSector_spec (ha : daddr % 4096 = 0) (hlen : buffer.length = 4096) (b : Board F) :
    wp (Frame daddr 4096 b) (Stored daddr buffer b) (storeSector false daddr buffer) b := by
  unfold storeSector skipSector
  rw [if_neg (by simp)]
  by_cases h0 : daddr = 0
  · rw [if_pos h0]
    refine wp_bind (wp_bind (wp_SPIRead (fun b' hr hc => frame_of_cells _ _ hr hc)
      fun r b₁ hr hc hsome hnone => ?_))
    have h₁ : Frame daddr 4096 b b₁ := frame_of_cells _ _ hr hc
    cases r with
    | none =>
      have := hnone rfl
      exact wp_ret h₁ (wp_ret h₁ ⟨h₁, by simp, fun _ => by omega⟩)
    | some buffer2 =>
      obtain ⟨hread, hf₁, hcap⟩ := hsome _ rfl
      refine wp_ret h₁ ?_
      by_cases heq : buffer2 = buffer
      · have hholds : Holds b₁.chip.cells daddr buffer := by
          rw [hc, ← heq, hread]
          exact holds_slice _ _ _
        simp only [heq, decide_true]
        exact wp_ret h₁ ⟨h₁, fun _ => ⟨hholds, hf₁, hcap⟩, by simp⟩
      · simp only [heq, decide_false]
        refine (rewriteSector_spec ha hlen b₁).mono (fun b' h => h₁.trans h) ?_
        rintro res b' - ⟨hframe, hgood, hbad⟩
        rw [hf₁] at hgood hbad
        exact ⟨h₁.trans hframe, hgood, hbad⟩
  · rw [if_neg h0]
    exact wp_bind (wp_ret (Frame.refl _ _ b) (rewriteSector_spec ha hlen b))

/-- The contents `f` after `n` bytes have been copied from `src` to `dst`. -/
def copied (f : Nat → UInt8) (src dst n : Nat) : Nat → UInt8 :=
  fun x => if dst ≤ x ∧ x < dst + n then f (src + (x - dst)) else f x

variable {f : Nat → UInt8} {src dst m : Nat}

theorem slice_copied {n : Nat} (hsep : dst ≤ src ∨ src + n ≤ dst)
    (hm : m + 4096 ≤ n) : slice (copied f src dst m) (src + m) 4096 = slice f (src + m) 4096 := by
  refine slice_congr fun i hi => ?_
  rw [copied, if_neg (by omega)]

theorem copied_add {g g' : Nat → UInt8} (hg : g = copied f src dst m)
    (hout : ∀ x, x < dst + m ∨ dst + m + 4096 ≤ x → g' x = g x)
    (hin : Holds g' (dst + m) (slice f (src + m) 4096)) : g' = copied f src dst (m + 4096) := by
  funext x
  by_cases hx : dst + m ≤ x ∧ x < dst + m + 4096
  · have := hin (x - (dst + m)) (by rw [slice_length]; omega)
    rw [slice_getElem, show dst + m + (x - (dst + m)) = x by omega] at this
    rw [this, copied, if_pos (by omega), show src + m + (x - (dst + m)) = src + (x - dst) by omega]
  · rw [hout x (by omega), hg, copied, copied]
    by_cases hx' : dst ≤ x ∧ x < dst + m
    · rw [if_pos hx', if_pos (by omega)]
    · rw [if_neg hx', if_neg (by omega)]

/-- What a copy of `n` bytes comes to: on 0 the destination holds what the
source held, any other result comes from a failed call. -/
def Copied (src dst n : Nat) (b : Board F) (res : Nat) (b' : Board F) : Prop :=
  Frame dst n b b' ∧
    (res = 0 → b'.chip.cells = copied b.chip.cells src dst n) ∧
    (res ≠ 0 → b.chip.faults < b'.chip.faults)

variable {b₀ : Board F}

/-- **The copy loop.**  From contents in which the first `m` bytes have been
copied it copies the rest, sector by sector; wherever it is cut, nothing
outside the destination has changed.  The destination must not run into the
part of the source still to be read. -/
theorem copyLoop_spec (U : Uzlib F) {n : Nat} (hdst : dst % 4096 = 0)
    (hsep : dst ≤ src ∨ src + n ≤ dst) {rounds left : Nat} (hm : m % 4096 = 0)
    (hleft : left % 4096 = 0) (hn : m + left = n) (hr : left / 4096 < rounds) {b : Board F}
    (hb : b.chip.cells = copied b₀.chip.cells src dst m) (hrtc : b.rtc = b₀.rtc)
    (hfaults : b₀.chip.faults ≤ b.chip.faults) :
    wp (Frame dst n b₀) (Copied src dst n b₀)
      (copyLoop U false rounds none (src + m) (dst + m) left) b := by
  induction rounds generalizing m left b with
  | zero => omega
  | succ rounds ih =>
    have hframe : ∀ b' : Board F, b'.rtc = b.rtc → b'.chip.cells = b.chip.cells →
        Frame dst n b₀ b' := by
      intro b' hr hc
      refine ⟨hr.trans hrtc, fun x hx => ?_⟩
      rw [hc, hb, copied, if_neg (by omega)]
    unfold copyLoop
    by_cases h0 : left = 0
    · rw [if_neg (by omega)]
      obtain rfl : m = n := by omega
      exact wp_ret (hframe b rfl rfl) ⟨hframe b rfl rfl, fun _ => hb, by simp⟩
    · rw [if_pos (by omega)]
      refine wp_bind (wp_bind (wp_SPIRead hframe fun r b₁ hr₁ hc₁ hsome hnone => ?_))
      have h₁ := hframe b₁ hr₁ hc₁
      cases r with
      | none =>
        have := hnone rfl
        exact wp_ret h₁ (wp_ret h₁ ⟨h₁, by simp, fun _ => by omega⟩)
      | some buffer =>
        obtain ⟨hread, hf₁, hcap⟩ := hsome _ rfl
        rw [hb, slice_copied hsep (by omega)] at hread
        refine wp_ret h₁ (wp_bind ((storeSector_spec (by omega) (by rw [hread, slice_length])
          b₁).mono ?_ ?_))
        · exact fun b' h => ⟨h.1.trans h₁.1, fun x hx => (h.2 x (by omega)).trans (h₁.2 x hx)⟩
        · rintro res b₂ - ⟨hframe₂, hgood, hbad⟩
          have h₂ : Frame dst n b₀ b₂ :=
            ⟨hframe₂.1.trans h₁.1, fun x hx => (hframe₂.2 x (by omega)).trans (h₁.2 x hx)⟩
          by_cases hres : res = 0
          · obtain ⟨hholds, hf₂, hcap₂⟩ := hgood hres
            have hmax := F.capacity_le
            rw [if_neg (by simp [hres]), u32_of_lt (by omega), u32_of_lt (by omega),
              show ((left : Int) - 4096) = ((left - 4096 : Nat) : Int) by omega,
              Nat.add_assoc, Nat.add_assoc]
            refine ih (by omega) (by omega) (by omega) (by omega) ?_ (hframe₂.1.trans
              (hr₁.trans hrtc)) (by omega)
            exact copied_add (hc₁.trans hb) hframe₂.2 (hread ▸ hholds)
          · have := hbad hres
            rw [if_pos hres]
            exact wp_ret h₂ ⟨h₂, fun h => absurd h hres, fun _ => by omega⟩

/-! ## The whole of `copy_raw` -/

/-- A read that fails does not leave what could pass for a gzip signature. -/
def BootEnv.StackClean (env : BootEnv F) : Prop :=
  ∀ addr, env.stack addr ≠ 0x1f ∧ env.stack addr ≠ 0x8b

/-- The image at `src` does not start with the gzip signature. -/
def Uncompressed (f : Nat → UInt8) (src : Nat) : Prop := f src ≠ 0x1f ∨ f (src + 1) ≠ 0x8b

/-- How many bytes `copy_raw` copies for a size: whole sectors, as far as an
`int32_t` counts them. -/
def copyLength (size : Nat) : Nat := (int32 (clearLow 12 (u32 (size + 4096 - 1)))).toNat

theorem copyLength_mod (size : Nat) : copyLength size % 4096 = 0 := by
  rw [copyLength, clearLow_eq (m := 4096) (by omega) rfl (u32_lt _), int32]
  have := u32_lt (size + 4096 - 1)
  split <;> omega

theorem copyLength_le {size : Nat} : copyLength size ≤ roundUp 4096 size := by
  have := Nat.div_mul_le_self (u32 (size + 4096 - 1)) 4096
  have := u32_lt (size + 4096 - 1)
  rw [copyLength, clearLow_eq (m := 4096) (by omega) rfl (u32_lt _), int32, roundUp]
  unfold u32 at *
  split <;> omega

theorem copyLength_eq {size : Nat} (h : size ≤ 0x1000000) :
    copyLength size = roundUp 4096 size := by
  rw [copyLength, u32_of_lt (by omega), clearLow_eq (m := 4096) (by omega) rfl (by omega), int32,
    roundUp]
  split <;> omega

def Same (b b' : Board F) : Prop := b'.rtc = b.rtc ∧ b'.chip.cells = b.chip.cells

theorem readFlashByte_spec (env : BootEnv F) {addr : Nat} (ha : addr < 4294967296)
    (b : Board F) :
    wp (Same b) (fun v b' => Same b b' ∧
        (v = b.chip.cells addr ∧ b'.chip.faults = b.chip.faults ∨
          v = env.stack addr ∧ b'.chip.faults = b.chip.faults + 1))
      (readFlashByte env addr) b := by
  have hlow : addr &&& 3 = addr % 4 := Nat.and_two_pow_sub_one_eq_mod addr 2
  refine wp_bind (wp_SPIRead (fun b' hr hc => ⟨hr, hc⟩) fun r b₁ hr hc hsome hnone => ?_)
  cases r with
  | none => exact wp_ret ⟨hr, hc⟩ ⟨⟨hr, hc⟩, .inr ⟨rfl, hnone rfl⟩⟩
  | some buff =>
    obtain ⟨hread, hf, -⟩ := hsome _ rfl
    refine wp_ret ⟨hr, hc⟩ ⟨⟨hr, hc⟩, .inl ⟨?_, hf⟩⟩
    have hlt : addr % 4 < (slice b.chip.cells (addr / 4 * 4) 4).length := by
      rw [slice_length]
      omega
    have hal : clearLow 2 addr = addr / 4 * 4 := clearLow_eq (by omega) rfl ha
    rw [hread, hal, hlow, List.getD_eq_getElem?_getD, List.getElem?_eq_getElem hlt,
      Option.getD_some, slice_getElem, show addr / 4 * 4 + addr % 4 = addr by omega]

theorem isGzip_spec (env : BootEnv F) (hs : src + 1 < 4294967296) (b : Board F)
    (h : Uncompressed b.chip.cells src) :
    wp (Same b) (fun z b' => Same b b' ∧ b.chip.faults ≤ b'.chip.faults ∧
        (env.StackClean ∨ b'.chip.faults = b.chip.faults → z = false))
      (isGzip env src) b := by
  refine wp_bind ((readFlashByte_spec env (by omega) b).mono (fun _ h => h) ?_)
  rintro v b₁ - ⟨hsame, hv⟩
  by_cases h1f : v = 0x1f
  · rw [if_pos h1f]
    refine wp_bind ((readFlashByte_spec env (u32_lt _) b₁).mono
      (fun b' h => ⟨h.1.trans hsame.1, h.2.trans hsame.2⟩) ?_)
    rintro w b₂ - ⟨hsame₂, hw⟩
    have hsame' : Same b b₂ := ⟨hsame₂.1.trans hsame.1, hsame₂.2.trans hsame.2⟩
    refine wp_ret hsame' ⟨hsame', by omega, fun hclean => ?_⟩
    rw [u32_of_lt hs, hsame.2] at hw
    simp only [decide_eq_false_iff_not]
    rintro rfl
    rcases hv with ⟨rfl, hf₁⟩ | ⟨rfl, hf₁⟩
    · rcases hw with ⟨hw, hf₂⟩ | ⟨hw, hf₂⟩
      · exact h.elim (fun h => h h1f) (fun h => h hw.symm)
      · rcases hclean with hclean | hf
        · exact (hclean _).2 hw.symm
        · omega
    · rcases hclean with hclean | hf
      · exact (hclean _).1 h1f
      · rcases hw with ⟨-, hf₂⟩ | ⟨-, hf₂⟩ <;> omega
  · rw [if_neg h1f]
    exact wp_ret hsame ⟨hsame, by omega, fun _ => rfl⟩

theorem copyLoop_all (U : Uzlib F) {size : Nat} (hdst : dst % 4096 = 0)
    (hsep : dst ≤ src ∨ src + copyLength size ≤ dst) {b : Board F} (hsame : Same b₀ b)
    (hle : b₀.chip.faults ≤ b.chip.faults) :
    wp (Frame dst (copyLength size) b₀) (Copied src dst (copyLength size) b₀)
      (copyLoop U false (copyLength size / 4096 + 1) none src dst
        (int32 (clearLow 12 (u32 (size + 4096 - 1))))) b := by
  have hmod := copyLength_mod size
  by_cases hneg : int32 (clearLow 12 (u32 (size + 4096 - 1))) > 0
  · have hleft : int32 (clearLow 12 (u32 (size + 4096 - 1))) = (copyLength size : Int) := by
      rw [copyLength]
      omega
    rw [hleft]
    refine copyLoop_spec U hdst hsep (m := 0) rfl hmod (Nat.zero_add _) (by omega) ?_ hsame.1 hle
    rw [hsame.2]
    funext x
    rw [copied, if_neg (by omega)]
  · have h0 : copyLength size = 0 := by
      rw [copyLength]
      omega
    have hframe : Frame dst (copyLength size) b₀ b := frame_of_cells _ _ hsame.1 hsame.2
    unfold copyLoop
    rw [if_neg hneg]
    refine wp_ret hframe ⟨hframe, fun _ => ?_, by simp⟩
    rw [h0, hsame.2]
    funext x
    rw [copied, if_neg (by omega)]

theorem and_fff (n : Nat) : n &&& 0xfff = n % 4096 := Nat.and_two_pow_sub_one_eq_mod n 12

theorem run_faults_le {α : Type} {p : Prog (rom F) α} {a : α} {b : Board F}
    (h : p.run b = (a, b')) : b.chip.faults ≤ b'.chip.faults := by
  induction p generalizing b with
  | ret a =>
    obtain ⟨-, rfl⟩ := Prod.mk.inj h
    exact Nat.le_refl _
  | call o next ih =>
    refine Nat.le_trans ?_ (ih _ h)
    cases o with
    | SPIRead addr size => exact read_faults_le addr size b.chip
    | SPIEraseSector sector => exact erase_faults_le sector b.chip
    | SPIWrite addr src => exact program_faults_le addr src b.chip
    | rtcLoad => exact Nat.le_refl _
    | rtcStore i value => exact Nat.le_refl _

/-- **An uninterrupted `copy_raw`** in which no call fails, or none leaves a
signature on the stack. -/
theorem copyRaw_run {env : BootEnv F} {size res : Nat} (hsrc : src % 4096 = 0)
    (hdst : dst % 4096 = 0) (hs : src < 4294967296) {b : Board F}
    (h : Uncompressed b.chip.cells src) (hsep : dst ≤ src ∨ src + copyLength size ≤ dst)
    (hrun : (copyRaw env src dst size false).run b = (res, b'))
    (hclean : env.StackClean ∨ b'.chip.faults = b.chip.faults) :
    Copied src dst (copyLength size) b res b' := by
  unfold copyRaw at hrun
  rw [if_neg (by rw [and_fff, and_fff]; omega), run_bind] at hrun
  obtain ⟨hsame, hle, hz⟩ := (isGzip_spec env (by omega) b h).run
  generalize (isGzip env src).run b = r at hrun hsame hle hz
  obtain ⟨z, b₁⟩ := r
  dsimp only at hrun hsame hle hz
  cases z with
  | false =>
    have := (copyLoop_all env.uzlib hdst hsep hsame hle).run
    rw [if_neg (by simp)] at hrun
    rwa [copyLength, hrun] at this
  | true =>
    have hmono := run_faults_le hrun
    refine absurd (hz ?_) (by simp)
    rcases hclean with hclean | hf
    · exact .inl hclean
    · exact .inr (by omega)

end Eboot
