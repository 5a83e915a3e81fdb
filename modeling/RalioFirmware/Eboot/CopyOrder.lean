import RalioFirmware.Eboot.CopyRaw

/-!
# The order of `copy_raw`'s calls

Where source and destination overlap, every erase may destroy what has not
been read yet.  This file follows the history of a copy: which sector is
read, erased and written when, and where the copy stops after a failed call.
-/

open Word Bytes Nor Nor.Chip Crash Crash.Prog List

namespace Eboot

variable {F : SpiFlash}

abbrev Step (F : SpiFlash) := (o : (rom F).Op) × (rom F).Res o

def RomOp.failed : (o : RomOp) → o.Res → Bool
  | .SPIRead _ _, r => r.isNone
  | .SPIEraseSector _, ok => !ok
  | .SPIWrite _ _, ok => !ok
  | .rtcLoad, _ => false
  | .rtcStore _ _, _ => false

def failed (step : Step F) : Bool := RomOp.failed step.1 step.2

/-- A sector at `addr` was read. -/
def didRead (addr : Nat) (bytes : List UInt8) : Step F := ⟨RomOp.SPIRead addr 4096, some bytes⟩

def didErase (sector : Nat) (ok : Bool) : Step F := ⟨RomOp.SPIEraseSector sector, ok⟩

/-- The call works on the sector `m` bytes into source and destination. -/
def WorksOn (src dst m : Nat) (step : Step F) : Prop :=
  match step.1 with
  | .SPIRead addr _ => addr = src + m ∨ addr = dst + m
  | .SPIEraseSector sector => sector = (dst + m) / 4096
  | .SPIWrite addr _ => addr = dst + m
  | _ => False

/-- What may be called after the history `t` when `n` bytes are copied from
`src`: a sector is erased at most once, and after every source sector that
lies there has been read; a sector is written after it was erased; the boot
loader's own sector is erased only when it is to change. -/
def Allowed (f : Nat → UInt8) (src n : Nat) (t : List (Step F)) (step : Step F) : Prop :=
  match step.1 with
  | .SPIEraseSector sector =>
    (∀ ok, didErase sector ok ∉ t) ∧
    (∀ k < n, k % 4096 = 0 → (src + k) / 4096 = sector → ∃ bytes, didRead (src + k) bytes ∈ t) ∧
    (sector = 0 → slice f 0 4096 ≠ slice f src 4096)
  | .SPIWrite addr bytes =>
    addr % 4096 = 0 ∧ bytes.length = 4096 ∧ didErase (addr / 4096) true ∈ t
  | _ => True

/-- Every call of the history was allowed when it was made. -/
def Ordered (f : Nat → UInt8) (src n : Nat) (t : List (Step F)) : Prop :=
  ∀ t₁ step t₂, t = t₁ ++ step :: t₂ → Allowed f src n t₁ step

/-- What is said of `copy_raw` as a `memmove` by sectors. -/
structure Memmoves (env : BootEnv F) (src dst size : Nat) (b : Board F) : Prop where
  /-- With no failing call the source arrives. -/
  moved : (∀ step ∈ (copyRaw env src dst size false).trace b, failed step = false) →
    ((copyRaw env src dst size false).run b).1 = 0 ∧
    ∀ i < size, ((copyRaw env src dst size false).run b).2.chip.cells (dst + i) =
      b.chip.cells (src + i)
  /-- Sectors are erased once, after what they hold has been read, and before
  they are written. -/
  ordered : Ordered b.chip.cells src (roundUp 4096 size)
    ((copyRaw env src dst size false).trace b)
  /-- A failing call is the last one, and no sector beyond its own has been
  touched. -/
  stops : ∀ t₁ step t₂, (copyRaw env src dst size false).trace b = t₁ ++ step :: t₂ →
    failed step = true → t₂ = [] ∧ ((copyRaw env src dst size false).run b).1 ≠ 0 ∧
      ∃ m, WorksOn src dst m step ∧ ∀ x, x < dst ∨ dst + m + 4096 ≤ x →
        ((copyRaw env src dst size false).run b).2.chip.cells x = b.chip.cells x

/-! ## One step more -/

variable {f : Nat → UInt8} {src dst n m : Nat} {t : List (Step F)}

theorem Ordered.snoc {step : Step F} (h : Ordered f src n t) (hstep : Allowed f src n t step) :
    Ordered f src n (t ++ [step]) := by
  intro t₁ last t₂ heq
  rcases eq_nil_or_concat t₂ with rfl | ⟨t₂, step', rfl⟩
  · obtain ⟨rfl, hlast⟩ := append_inj' heq rfl
    rw [← head_eq_of_cons_eq hlast]
    exact hstep
  · have heq' : t ++ [step] = (t₁ ++ last :: t₂) ++ [step'] := by simpa using heq
    exact h t₁ last t₂ (append_inj' heq' rfl).1

variable {addr k : Nat}

/-- The history of a copy that has read the first `r` bytes and is through
with the first `w`. -/
structure Progress (f : Nat → UInt8) (src dst n r w : Nat) (t : List (Step F)) : Prop where
  ordered : Ordered f src n t
  clean : ∀ step ∈ t, failed step = false
  read : ∀ k < r, k % 4096 = 0 → ∃ bytes, didRead (src + k) bytes ∈ t
  erased : ∀ sector ok, didErase sector ok ∈ t → sector < (dst + w) / 4096

/-- A copy that met a failing call in the sector `m` bytes in. -/
structure StoppedAt (f : Nat → UInt8) (src dst n m : Nat) (t : List (Step F)) (b : Board F) :
    Prop where
  ordered : Ordered f src n t
  last : ∃ t₁ step, t = t₁ ++ [step] ∧ failed step = true ∧ (∀ step ∈ t₁, failed step = false) ∧
    WorksOn src dst m step
  untouched : ∀ x, x < dst ∨ dst + m + 4096 ≤ x → b.chip.cells x = f x

namespace Progress

variable {r w : Nat}

theorem stop {step : Step F} {b : Board F} (h : Progress f src dst n r w t)
    (hstep : Allowed f src n t step) (hfail : failed step = true) (hon : WorksOn src dst m step)
    (hb : ∀ x, x < dst ∨ dst + m + 4096 ≤ x → b.chip.cells x = f x) :
    StoppedAt f src dst n m (t ++ [step]) b :=
  ⟨h.ordered.snoc hstep, ⟨t, step, rfl, hfail, h.clean, hon⟩, hb⟩

/-- A call that did not fail is made. -/
theorem snoc {step : Step F} {w' : Nat} (h : Progress f src dst n r w t)
    (hstep : Allowed f src n t step) (hgood : failed step = false) (hle : w ≤ w')
    (herase : ∀ sector ok, didErase sector ok = step → sector < (dst + w') / 4096) :
    Progress f src dst n r w' (t ++ [step]) where
  ordered := h.ordered.snoc hstep
  clean s hs := by
    rcases mem_append.1 hs with hs | hs
    · exact h.clean s hs
    · grind
  read k hk hmod := by
    obtain ⟨bytes, hmem⟩ := h.read k hk hmod
    exact ⟨bytes, mem_append_left _ hmem⟩
  erased sector ok hmem := by
    rcases mem_append.1 hmem with hmem | hmem
    · have := h.erased sector ok hmem
      omega
    · exact herase sector ok (mem_singleton.1 hmem)

theorem peek {bytes : List UInt8} (h : Progress f src dst n r w t) :
    Progress f src dst n r w (t ++ [⟨RomOp.SPIRead addr k, some bytes⟩]) :=
  h.snoc trivial rfl (Nat.le_refl w) nofun

theorem fetch {bytes : List UInt8} (h : Progress f src dst n m m t) (hm : m % 4096 = 0) :
    Progress f src dst n (m + 4096) m (t ++ [didRead (src + m) bytes]) where
  ordered := h.peek.ordered
  clean := h.peek.clean
  read k hk hmod := by
    by_cases hkm : k = m
    · exact ⟨bytes, by rw [hkm]; exact mem_append_right _ (mem_singleton_self _)⟩
    · exact h.peek.read k (by omega) hmod
  erased := h.peek.erased

theorem allowed_erase {ok : Bool} (h : Progress f src dst n (m + 4096) m t)
    (hsrc : src % 4096 = 0) (hdst : dst % 4096 = 0) (hm : m % 4096 = 0) (hle : dst ≤ src)
    (hboot : dst + m = 0 → slice f 0 4096 ≠ slice f src 4096) :
    Allowed f src n t (didErase ((dst + m) / 4096) ok) := by
  refine ⟨fun ok' hmem => absurd (h.erased _ _ hmem) (Nat.lt_irrefl _), fun k _ hk hsec => ?_,
    fun h0 => hboot (by omega)⟩
  exact h.read k (by omega) hk

theorem erase (h : Progress f src dst n (m + 4096) m t)
    (hallowed : Allowed f src n t (didErase ((dst + m) / 4096) true)) :
    Progress f src dst n (m + 4096) (m + 4096) (t ++ [didErase ((dst + m) / 4096) true]) :=
  h.snoc hallowed rfl (Nat.le_add_right m 4096) fun sector ok heq => by
    cases heq
    omega

theorem write {addr : Nat} {bytes : List UInt8} (h : Progress f src dst n r w t)
    (hallowed : Allowed f src n t ⟨RomOp.SPIWrite addr bytes, true⟩) :
    Progress f src dst n r w (t ++ [⟨RomOp.SPIWrite addr bytes, true⟩]) :=
  h.snoc hallowed rfl (Nat.le_refl w) nofun

theorem skip (h : Progress f src dst n (m + 4096) m t) :
    Progress f src dst n (m + 4096) (m + 4096) t where
  ordered := h.ordered
  clean := h.clean
  read := h.read
  erased sector ok hmem := by
    have := h.erased sector ok hmem
    omega

end Progress

/-! ## The calls, with their histories -/

section

variable {b : Board F}

theorem hwp_SPIRead
    {Q : Option (List UInt8) → List (Step F) → Board F → Prop}
    (hsome : ∀ bytes (b' : Board F), bytes = slice b.chip.cells addr k →
      b'.chip.cells = b.chip.cells → addr + k ≤ F.capacity →
      Q (some bytes) (t ++ [⟨RomOp.SPIRead addr k, some bytes⟩]) b')
    (hnone : ∀ b' : Board F, b'.chip.cells = b.chip.cells →
      Q none (t ++ [⟨RomOp.SPIRead addr k, none⟩]) b') :
    hwp Q (SPIRead addr k) t b := by
  refine hwp_perform (M := rom F) ?_
  show Q (b.chip.read addr k).1 (t ++ [⟨RomOp.SPIRead addr k, (b.chip.read addr k).1⟩])
    { b with chip := (b.chip.read addr k).2 }
  cases h : b.chip.read addr k with
  | mk r c =>
    cases r with
    | none => exact hnone _ (read_none h).1
    | some bytes =>
      obtain ⟨hbytes, hcells, -, hcap⟩ := read_some h
      exact hsome bytes _ hbytes hcells hcap

variable {Q : Bool → List (Step F) → Board F → Prop}

theorem hwp_SPIEraseSector
    (ha : addr % 4096 = 0)
    (hQ : ∀ ok (b' : Board F),
      (∀ x, x < addr ∨ addr + 4096 ≤ x → b'.chip.cells x = b.chip.cells x) →
      (ok = true → Blank b'.chip.cells addr 4096) → Q ok (t ++ [didErase (addr / 4096) ok]) b') :
    hwp Q (SPIEraseSector (addr / 4096)) t b := by
  refine hwp_perform (M := rom F) ?_
  show Q (b.chip.erase (addr / 4096)).1 (t ++ [didErase (addr / 4096) (b.chip.erase _).1])
    { b with chip := (b.chip.erase (addr / 4096)).2 }
  cases h : b.chip.erase (addr / 4096) with
  | mk ok c =>
    refine hQ ok _ (fun x hx => ?_) fun hok => ?_
    · cases ok with
      | true => exact (erase_true h).2.1 x (by omega)
      | false => exact (erase_false h).1 x (by omega)
    · subst hok
      exact fun i hi => (erase_true h).1 _ (by omega)

theorem hwp_SPIWrite {src : List UInt8} (ha : addr % 4 = 0) (hs : src.length % 4 = 0)
    (hQ : ∀ ok (b' : Board F),
      (∀ x, x < addr ∨ addr + src.length ≤ x → b'.chip.cells x = b.chip.cells x) →
      (ok = true → Blank b.chip.cells addr src.length → Holds b'.chip.cells addr src) →
      Q ok (t ++ [⟨RomOp.SPIWrite addr src, ok⟩]) b') :
    hwp Q (SPIWrite addr src) t b := by
  refine hwp_perform (M := rom F) ?_
  show Q (b.chip.program addr src).1 (t ++ [⟨RomOp.SPIWrite addr src, (b.chip.program _ _).1⟩])
    { b with chip := (b.chip.program addr src).2 }
  cases h : b.chip.program addr src with
  | mk ok c =>
    refine hQ ok _ (fun x hx => ?_) fun hok => ?_
    · cases ok with
      | true => exact (program_true ha hs h).2.1 x hx
      | false => exact (program_false ha hs h).1 x hx
    · subst hok
      exact program_blank ha hs h

end

/-! ## One sector -/

def SectorDone (f : Nat → UInt8) (src dst n m res : Nat) (t : List (Step F)) (b : Board F) :
    Prop :=
  (res = 0 ∧ Progress f src dst n (m + 4096) (m + 4096) t ∧
    b.chip.cells = copied f src dst (m + 4096)) ∨
  (res ≠ 0 ∧ StoppedAt f src dst n m t b)

theorem untouched_of_copied {g g' : Nat → UInt8} (hg : g = copied f src dst m)
    (hout : ∀ x, x < dst + m ∨ dst + m + 4096 ≤ x → g' x = g x) :
    ∀ x, x < dst ∨ dst + m + 4096 ≤ x → g' x = f x := by
  intro x hx
  rw [hout x (by omega), hg, copied, if_neg (by omega)]

section

variable {b : Board F}

variable {buffer : List UInt8}

theorem hwp_rewriteSector (hsrc : src % 4096 = 0) (hdst : dst % 4096 = 0) (hm : m % 4096 = 0)
    (hle : dst ≤ src) (hp : Progress f src dst n (m + 4096) m t)
    (hb : b.chip.cells = copied f src dst m)
    (hbuffer : buffer = slice f (src + m) 4096)
    (hboot : dst + m = 0 → slice f 0 4096 ≠ slice f src 4096) :
    hwp (SectorDone f src dst n m) (rewriteSector (dst + m) buffer) t b := by
  have hlen : buffer.length = 4096 := by rw [hbuffer, slice_length]
  have hallowed : ∀ ok, Allowed f src n t (didErase ((dst + m) / 4096) ok) := fun ok =>
    hp.allowed_erase hsrc hdst hm hle hboot
  refine hwp_bind (hwp_SPIEraseSector (by omega) fun ok b₁ hout hblank => ?_)
  cases ok with
  | false =>
    exact hwp_ret (.inr ⟨by decide, hp.stop (hallowed false) rfl rfl
      (untouched_of_copied hb hout)⟩)
  | true =>
    have hp₁ := hp.erase (hallowed true)
    refine hwp_bind (hwp_SPIWrite (by omega) (by omega) fun ok b₂ hout₂ hholds => ?_)
    have hout₂' : ∀ x, x < dst + m ∨ dst + m + 4096 ≤ x →
        b₂.chip.cells x = b.chip.cells x := by
      intro x hx
      rw [hout₂ x (by omega), hout x hx]
    have hwrite : ∀ ok, Allowed f src n (t ++ [didErase ((dst + m) / 4096) true])
        ⟨RomOp.SPIWrite (dst + m) buffer, ok⟩ := fun ok =>
      ⟨by omega, hlen, mem_append_right _ (mem_singleton_self _)⟩
    cases ok with
    | false =>
      exact hwp_ret (.inr ⟨by decide, hp₁.stop (hwrite false) rfl rfl
        (untouched_of_copied hb hout₂')⟩)
    | true =>
      refine hwp_ret (.inl ⟨rfl, hp₁.write (hwrite true), ?_⟩)
      exact copied_add hb hout₂' (hbuffer ▸ hholds rfl (by rw [hlen]; exact hblank rfl))

theorem hwp_storeSector (hsrc : src % 4096 = 0) (hdst : dst % 4096 = 0) (hm : m % 4096 = 0)
    (hle : dst ≤ src) (hp : Progress f src dst n (m + 4096) m t)
    (hb : b.chip.cells = copied f src dst m)
    (hbuffer : buffer = slice f (src + m) 4096) :
    hwp (SectorDone f src dst n m) (storeSector false (dst + m) buffer) t b := by
  unfold storeSector skipSector
  rw [if_neg (by simp)]
  by_cases h0 : dst + m = 0
  · rw [if_pos h0]
    obtain ⟨rfl, rfl⟩ : dst = 0 ∧ m = 0 := by omega
    refine hwp_bind (hwp_bind (hwp_SPIRead (fun bytes b₁ hbytes hcells _ => ?_)
      fun b₁ hcells => ?_))
    · have hf : b.chip.cells = f := by
        rw [hb]
        funext x
        rw [copied, if_neg (by omega)]
      refine hwp_ret ?_
      by_cases heq : bytes = buffer
      · -- the boot loader's sector is left alone
        simp only [heq, decide_true]
        refine hwp_ret (.inl ⟨rfl, hp.peek.skip, ?_⟩)
        refine copied_add hb (fun x _ => by rw [hcells]) ?_
        rw [hcells, ← hbuffer, ← heq, hbytes]
        exact holds_slice _ _ _
      · simp only [heq, decide_false]
        refine hwp_rewriteSector hsrc hdst hm hle hp.peek (hcells.trans hb) hbuffer
          fun _ hsame => ?_
        rw [hbytes, hbuffer, hf] at heq
        exact heq hsame
    · refine hwp_ret (hwp_ret (.inr ⟨by decide, hp.stop trivial rfl (.inr rfl) ?_⟩))
      exact untouched_of_copied hb fun x _ => by rw [hcells]
  · rw [if_neg h0]
    exact hwp_bind (hwp_ret (hwp_rewriteSector hsrc hdst hm hle hp hb hbuffer fun h => absurd h h0))

end

/-! ## The whole copy -/

/-- How a copy ends: everything moved and no call failed, or at the failed
call in the sector it was working on. -/
def Ended (f : Nat → UInt8) (src dst n res : Nat) (t : List (Step F)) (b : Board F) : Prop :=
  (res = 0 ∧ Progress f src dst n n n t ∧ b.chip.cells = copied f src dst n) ∨
  (res ≠ 0 ∧ ∃ m, StoppedAt f src dst n m t b)

/-- **The loop keeps the order**, sector by sector. -/
theorem hwp_copyLoop (U : Uzlib F) (hsrc : src % 4096 = 0) (hdst : dst % 4096 = 0)
    (hle : dst ≤ src) {rounds left : Nat} (hm : m % 4096 = 0) (hleft : left % 4096 = 0)
    (hn : m + left = n) (hr : left / 4096 < rounds) {b : Board F}
    (hp : Progress f src dst n m m t) (hb : b.chip.cells = copied f src dst m) :
    hwp (Ended f src dst n) (copyLoop U false rounds none (src + m) (dst + m) left) t b := by
  induction rounds generalizing m left t b with
  | zero => omega
  | succ rounds ih =>
    unfold copyLoop
    by_cases h0 : left = 0
    · rw [if_neg (by omega)]
      obtain rfl : m = n := by omega
      exact hwp_ret (.inl ⟨rfl, hp, hb⟩)
    · rw [if_pos (by omega)]
      refine hwp_bind (hwp_bind (hwp_SPIRead (fun bytes b₁ hbytes hcells hcap => ?_)
        fun b₁ hcells => ?_))
      · have hmax := F.capacity_le
        rw [hb, slice_copied (.inl hle) (Nat.le_refl (m + 4096))] at hbytes
        refine hwp_ret (hwp_bind ?_)
        refine (hwp_storeSector hsrc hdst hm hle (hp.fetch hm) (hcells.trans hb) hbytes).mono
          fun res t' b' hdone => ?_
        rcases hdone with ⟨rfl, hp', hb'⟩ | ⟨hres, hstop⟩
        · rw [if_neg (by simp), u32_of_lt (by omega), u32_of_lt (by omega),
            show ((left : Int) - 4096) = ((left - 4096 : Nat) : Int) by omega,
            Nat.add_assoc, Nat.add_assoc]
          exact ih (by omega) (by omega) (by omega) (by omega) hp' hb'
        · rw [if_pos hres]
          exact hwp_ret (.inr ⟨hres, m, hstop⟩)
      · refine hwp_ret (hwp_ret (.inr ⟨by decide, m, hp.stop trivial rfl (.inl rfl) ?_⟩))
        exact untouched_of_copied hb fun x _ => by rw [hcells]

/-! ## The probe -/

def Probed (step : Step F) : Prop := ∃ addr r, step = ⟨RomOp.SPIRead addr 4, r⟩

theorem hwp_readFlashByte (env : BootEnv F) (ha : addr < 4294967296) {b : Board F}
    {Q : UInt8 → List (Step F) → Board F → Prop}
    (hQ : ∀ v r (b' : Board F), b'.chip.cells = b.chip.cells →
      (r ≠ none → v = b.chip.cells addr) →
      Q v (t ++ [⟨RomOp.SPIRead (clearLow 2 addr) 4, r⟩]) b') :
    hwp Q (readFlashByte env addr) t b := by
  have hlow : addr &&& 3 = addr % 4 := Nat.and_two_pow_sub_one_eq_mod addr 2
  have hal : clearLow 2 addr = addr / 4 * 4 := clearLow_eq (by omega) rfl ha
  refine hwp_bind (hwp_SPIRead (fun bytes b₁ hbytes hcells _ => hwp_ret (hQ _ _ _ hcells ?_))
    fun b₁ hcells => hwp_ret (hQ _ _ _ hcells fun h => absurd rfl h))
  intro _
  have hlt : addr % 4 < (slice b.chip.cells (addr / 4 * 4) 4).length := by
    rw [slice_length]
    omega
  rw [hbytes, hal, hlow, getD_eq_getElem?_getD, getElem?_eq_getElem hlt,
    Option.getD_some, slice_getElem, show addr / 4 * 4 + addr % 4 = addr by omega]

/-- What the probe comes to on an image without the signature: where none of
its reads failed it finds none. -/
def ProbeDone (b : Board F) (z : Bool) (t : List (Step F)) (b' : Board F) : Prop :=
  (∀ step ∈ t, Probed step) ∧ b'.chip.cells = b.chip.cells ∧
    ((∀ step ∈ t, failed step = false) → z = false)

theorem hwp_isGzip (env : BootEnv F) (hs : src + 1 < 4294967296) {b : Board F}
    (h : Uncompressed b.chip.cells src) : hwp (ProbeDone b) (isGzip env src) [] b := by
  refine hwp_bind (hwp_readFlashByte env (by omega) fun v r b₁ hcells hv => ?_)
  by_cases h1f : v = 0x1f
  · rw [if_pos h1f]
    refine hwp_bind (hwp_readFlashByte env (u32_lt _) fun v' r' b₂ hcells₂ hv' => ?_)
    refine hwp_ret ⟨fun step hstep => ?_, hcells₂.trans hcells, fun hclean => ?_⟩
    · rcases mem_pair.1 hstep with rfl | rfl <;> exact ⟨_, _, rfl⟩
    · have hr : r ≠ none := by
        rintro rfl
        exact Bool.false_ne_true (hclean _ (mem_cons_self ..)).symm
      have hr' : r' ≠ none := by
        rintro rfl
        exact Bool.false_ne_true
          (hclean _ (mem_cons_of_mem _ (mem_singleton_self _))).symm
      rw [hcells, u32_of_lt hs] at hv'
      rw [hv hr] at h1f
      rw [hv' hr', decide_eq_false_iff_not]
      exact fun h8b => h.elim (fun h => h h1f) fun h => h h8b
  · rw [if_neg h1f]
    refine hwp_ret ⟨fun step hstep => ?_, hcells, fun _ => rfl⟩
    obtain rfl := mem_singleton.1 hstep
    exact ⟨_, _, rfl⟩

theorem progress_of_probes (hprobes : ∀ step ∈ t, Probed step)
    (hclean : ∀ step ∈ t, failed step = false) : Progress f src dst n 0 0 t where
  ordered t₁ step t₂ heq := by
    obtain ⟨addr, r, rfl⟩ := hprobes step (by rw [heq]; simp)
    trivial
  clean := hclean
  read k hk := absurd hk (Nat.not_lt_zero k)
  erased sector ok hmem := by
    obtain ⟨addr, r, heq⟩ := hprobes _ hmem
    cases heq

/-! ## `copy_raw` -/

/-- `copy_raw` behind its probe. -/
def afterProbe (env : BootEnv F) (src_addr dst_addr size : Nat) (gzip : Bool) :
    Prog (rom F) Nat :=
  let left := int32 (clearLow 12 (u32 (size + 4096 - 1)))
  if gzip then do
    let b0 ← readFlashByte env (sub32 (u32 (src_addr + size)) 4)
    let b1 ← readFlashByte env (sub32 (u32 (src_addr + size)) 3)
    let b2 ← readFlashByte env (sub32 (u32 (src_addr + size)) 2)
    let b3 ← readFlashByte env (sub32 (u32 (src_addr + size)) 1)
    let left := int32 (ofLe [b0, b1, b2, b3])
    let (res, m_uncomp) ← env.uzlib.gzipParseHeader (env.uzlib.init src_addr)
    if res ≠ 0 then pure 5
    else copyLoop env.uzlib false (left.toNat / 4096 + 1) (some m_uncomp) src_addr dst_addr left
  else copyLoop env.uzlib false (left.toNat / 4096 + 1) none src_addr dst_addr left

theorem copyRaw_eq (env : BootEnv F) (hsrc : src % 4096 = 0) (hdst : dst % 4096 = 0)
    (size : Nat) :
    copyRaw env src dst size false = isGzip env src >>= afterProbe env src dst size := by
  unfold copyRaw
  rw [if_neg (by rw [and_fff, and_fff]; omega)]
  rfl

theorem afterProbe_trace (env : BootEnv F) (src dst size : Nat) (z : Bool) (b : Board F)
    (h : (afterProbe env src dst size z).trace b = []) :
    ((afterProbe env src dst size z).run b).1 = 0 := by
  cases z with
  | true => cases h
  | false =>
    unfold afterProbe copyLoop at h ⊢
    simp only [Bool.false_eq_true, if_false] at h ⊢
    split at h
    next => cases h
    next hleft =>
      rw [if_neg hleft]
      rfl

theorem afterProbe_ended (env : BootEnv F) (hsrc : src % 4096 = 0) (hdst : dst % 4096 = 0)
    (hle : dst ≤ src) {size : Nat} (hsize : size ≤ 0x1000000) {b : Board F}
    (hp : Progress f src dst (roundUp 4096 size) 0 0 t) (hb : b.chip.cells = f) :
    hwp (Ended f src dst (roundUp 4096 size)) (afterProbe env src dst size false) t b := by
  have hmod := roundUp_mod (m := 4096) size
  have hleft : int32 (clearLow 12 (u32 (size + 4096 - 1))) = (roundUp 4096 size : Int) := by
    have hclear : clearLow 12 (u32 (size + 4096 - 1)) = roundUp 4096 size := by
      rw [u32_of_lt (by omega), @clearLow_eq 12 4096 _ (by omega) rfl (by omega), roundUp]
    have := roundUp_lt (m := 4096) (by omega) size
    rw [hclear, int32, if_pos (by omega)]
  unfold afterProbe
  rw [if_neg Bool.false_ne_true, hleft]
  refine hwp_copyLoop env.uzlib hsrc hdst hle (m := 0) rfl (by omega) (Nat.zero_add _) (by simp)
    hp ?_
  rw [hb]
  funext x
  rw [copied, if_neg (by omega)]

theorem failed_last {t₁ t₂ t' : List (Step F)} {step last : Step F}
    (heq : t₁ ++ step :: t₂ = t' ++ [last]) (hclean : ∀ step ∈ t', failed step = false)
    (hfail : failed step = true) : t₂ = [] ∧ step = last := by
  rcases eq_nil_or_concat t₂ with rfl | ⟨t₂, step', rfl⟩
  · exact ⟨rfl, head_eq_of_cons_eq (append_inj' heq rfl).2⟩
  · have heq' : (t₁ ++ step :: t₂) ++ [step'] = t' ++ [last] := by simpa using heq
    have hmem : step ∈ t' := by
      rw [← (append_inj' heq' rfl).1]
      simp
    rw [hclean step hmem] at hfail
    exact absurd hfail Bool.false_ne_true

/-- **`copy_raw` is a `memmove` by sectors** that keeps its order and stops at
the first failing call, exactly where no read of the probe for the gzip
signature fails: the probe does not look at the result of its reads. -/
theorem copyRaw_memmoves (env : BootEnv F) {src dst size : Nat} (hsrc : src % 4096 = 0)
    (hdst : dst % 4096 = 0) (hle : dst ≤ src) (hfit : src + size ≤ F.capacity) (b : Board F)
    (h : Uncompressed b.chip.cells src) :
    Memmoves env src dst size b ↔ ∀ step ∈ (isGzip env src).trace b, failed step = false := by
  have hmax := F.capacity_le
  obtain ⟨hprobes, hcells, hz⟩ := (hwp_isGzip env (by omega) h).run
  rw [nil_append] at hprobes hz
  have hrun : (copyRaw env src dst size false).run b =
      (afterProbe env src dst size ((isGzip env src).run b).1).run ((isGzip env src).run b).2 := by
    rw [copyRaw_eq env hsrc hdst, run_bind]
  have htrace : (copyRaw env src dst size false).trace b = (isGzip env src).trace b ++
      (afterProbe env src dst size ((isGzip env src).run b).1).trace
        ((isGzip env src).run b).2 := by
    rw [copyRaw_eq env hsrc hdst, trace_bind]
  constructor
  · intro hmove step hstep
    by_contra hfail
    rw [Bool.not_eq_false] at hfail
    obtain ⟨p₁, p₂, hsplit⟩ := append_of_mem hstep
    rw [hsplit, append_assoc, cons_append] at htrace
    obtain ⟨hnil, hres, -⟩ := hmove.stops p₁ step _ htrace hfail
    rw [hrun] at hres
    exact hres (afterProbe_trace env src dst size _ _ (append_eq_nil_iff.1 hnil).2)
  · intro hclean
    have hp : Progress b.chip.cells src dst (roundUp 4096 size) 0 0 ((isGzip env src).trace b) :=
      progress_of_probes hprobes hclean
    rw [hz hclean] at hrun htrace
    have hend := (afterProbe_ended env hsrc hdst hle (by omega) hp hcells).run
    rw [← htrace, ← hrun] at hend
    refine ⟨fun hall => ?_, ?_, fun t₁ step t₂ heq hfail => ?_⟩
    · rcases hend with ⟨hres, -, hcopied⟩ | ⟨-, m, hstop⟩
      · refine ⟨hres, fun i hi => ?_⟩
        have := le_roundUp (m := 4096) (by omega) size
        rw [hcopied, copied, if_pos (by omega), show dst + i - dst = i by omega]
      · obtain ⟨t₁, step, heq, hfail, -⟩ := hstop.last
        rw [hall step (by rw [heq]; simp)] at hfail
        exact absurd hfail Bool.false_ne_true
    · rcases hend with ⟨-, hp', -⟩ | ⟨-, m, hstop⟩
      · exact hp'.ordered
      · exact hstop.ordered
    · rcases hend with ⟨-, hp', -⟩ | ⟨hres, m, hstop⟩
      · rw [hp'.clean step (by rw [heq]; simp)] at hfail
        exact absurd hfail Bool.false_ne_true
      · obtain ⟨t', last, heq', -, hclean', hon⟩ := hstop.last
        obtain ⟨hnil, rfl⟩ := failed_last (heq.symm.trans heq') hclean' hfail
        exact ⟨hnil, hres, m, hon, hstop.untouched⟩

def bootFlash (bad : Nat → Bool) : SpiFlash where
  toDriver := scripted 4096 4 0x4000 bad
  flashId := 0x1640EF
  puyaBuffer := true
  capacity_le := (by decide : 0x4000 ≤ 0x1000000)

def bootEnv (bad : Nat → Bool) : BootEnv (bootFlash bad) where
  uzlib := ⟨Unit, fun _ => (), fun _ => pure (0, ()), fun _ _ => pure (1, [], ())⟩
  stack _ := 0

def bootBoard (bad : Nat → Bool) : Board (bootFlash bad) := ⟨⟨(fun _ => 0xE9, 0), 0⟩, fun _ => 0⟩

/-- Five bytes, with no failing call. -/
theorem copyRaw_memmoves_five :
    Memmoves (bootEnv fun _ => false) 0x2000 0x1000 5 (bootBoard fun _ => false) :=
  (copyRaw_memmoves _ (by decide) (by decide) (by decide) (by decide) _
    (.inl (by decide))).2 (by decide +kernel)

/-- When the first read of the probe fails, the copy goes on and reports
success. -/
theorem not_copyRaw_memmoves :
    ¬ ∀ (F : SpiFlash) (env : BootEnv F) (src dst size : Nat) (b : Board F), src % 4096 = 0 →
      dst % 4096 = 0 → dst ≤ src → src + size ≤ F.capacity → Uncompressed b.chip.cells src →
      Memmoves env src dst size b := by
  intro h
  have hmove := h _ (bootEnv fun n => n == 0) 0x2000 0x1000 5 (bootBoard _) (by decide) (by decide)
    (by decide) (by decide) (.inl (by decide))
  have hres := (hmove.stops [] ⟨RomOp.SPIRead 0x2000 4, none⟩ _ rfl rfl).2.1
  exact hres (by decide +kernel)

end Eboot
