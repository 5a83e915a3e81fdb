import RalioFirmware.Dhcp.Server

/-!
# Where a packet makes the DHCP server write and read

The copy into `dhcps_msg` is as long as the packet's first two buffers.  The walk
over the options takes the length of the whole packet, and goes on by length
bytes; before it looks at the bytes of an option it never checks that they are
there.  So the walk ends on every packet, and whether it stays inside the options
received is a property of the packet.
-/

open Word List

namespace Dhcp

/-! ## The options that a packet has -/

def optionSize (code : UInt8) : Nat :=
  if code = DHCP_OPTION_MSG_TYPE then 3 else if code = DHCP_OPTION_REQ_IPADDR then 6 else 2

/-- The options in an area are all there, for a walk over `left` bytes: it comes
to the end, or to an `END`, and the bytes of each option before lie in the area. -/
inductive Complete : List UInt8 → Nat → Prop
  | done (area : List UInt8) : Complete area 0
  | ended (rest : List UInt8) (left : Nat) : Complete (DHCP_OPTION_END :: rest) (left + 1)
  | option (code size : UInt8) (rest : List UInt8) (left : Nat) (hcode : code ≠ DHCP_OPTION_END)
      (hsize : optionSize code ≤ rest.length + 2)
      (hrest : Complete (rest.drop size.toNat) (left - (size.toNat + 1))) :
      Complete (code :: size :: rest) (left + 1)

theorem two_le_optionSize (code : UInt8) : 2 ≤ optionSize code := by
  unfold optionSize
  split
  · omega
  · split <;> omega

theorem complete_end {rest : List UInt8} {left : Nat} :
    Complete (DHCP_OPTION_END :: rest) (left + 1) :=
  Complete.ended rest left

theorem not_complete_nil {left : Nat} : ¬ Complete [] (left + 1) := by
  intro h
  cases h

theorem complete_option {area : List UInt8} {code : UInt8} {left : Nat}
    (hcode : code ≠ DHCP_OPTION_END) :
    Complete (code :: area) (left + 1) ↔
      optionSize code ≤ area.length + 1 ∧
        ∀ size ∈ area[0]?,
          Complete ((code :: area).drop (size.toNat + 2)) (left + 1 - (size.toNat + 2)) := by
  have htwo := two_le_optionSize code
  cases area with
  | nil =>
    constructor
    · intro h
      cases h
      exact absurd rfl hcode
    · rintro ⟨h, -⟩
      simp only [length_nil] at h
      omega
  | cons size rest =>
    have hleft : left + 1 - (size.toNat + 2) = left - (size.toNat + 1) := by omega
    simp only [length_cons, getElem?_cons_zero, Option.mem_some_iff, forall_eq',
      drop_succ_cons, hleft]
    constructor
    · intro h
      cases h with
      | ended => exact absurd rfl hcode
      | option _ _ _ _ _ hsize hrest => exact ⟨by omega, hrest⟩
    · intro ⟨hsize, hrest⟩
      exact .option code size rest left hcode (by omega) hrest

/-! ## The walk -/

theorem walk_isSome (client : Nat) (mem : Memory) (last : Int) :
    ∀ (rounds optptr : Nat) (w : Walk), (last - optptr).toNat ≤ rounds →
      ∃ w', walk client mem last rounds optptr w = some w' := by
  intro rounds
  induction rounds with
  | zero =>
    intro optptr w h
    exact ⟨w, if_neg (by omega)⟩
  | succ rounds ih =>
    intro optptr w h
    unfold walk
    by_cases hlast : (optptr : Int) < last
    · rw [if_pos hlast]
      by_cases hend : mem optptr = DHCP_OPTION_END
      · exact ⟨_, if_pos hend⟩
      · simp only [if_neg hend]
        exact ih _ _ (by omega)
    · exact ⟨w, if_neg hlast⟩

def Inside (lo hi : Nat) (offsets : List Nat) : Prop := ∀ i ∈ offsets, lo ≤ i ∧ i < hi

@[simp] theorem inside_nil {lo hi : Nat} : Inside lo hi [] := by simp [Inside]

@[simp] theorem inside_append {lo hi : Nat} {xs ys : List Nat} :
    Inside lo hi (xs ++ ys) ↔ Inside lo hi xs ∧ Inside lo hi ys := by
  simp only [Inside, mem_append]
  exact ⟨fun h => ⟨fun i hi => h i (Or.inl hi), fun i hi => h i (Or.inr hi)⟩,
    fun h i hi => hi.elim (h.1 i) (h.2 i)⟩

@[simp] theorem inside_cons {lo hi i : Nat} {xs : List Nat} :
    Inside lo hi (i :: xs) ↔ (lo ≤ i ∧ i < hi) ∧ Inside lo hi xs := by
  simp [Inside]

variable {optptr : Nat}

theorem option_reads (client : Nat) (mem : Memory) {lo : Nat} (hi : Nat) (w : Walk)
    (hlo : lo ≤ optptr) :
    Inside lo hi (Walk.option client mem optptr { w with reads := w.reads ++ [optptr] }).reads ∧
        optptr + 1 < hi ↔
      Inside lo hi w.reads ∧ optptr + optionSize (mem optptr) ≤ hi := by
  unfold Walk.option optionSize
  split
  · simp only [inside_append, inside_cons, inside_nil]
    grind
  · simp only []
    split
    · simp only [inside_append, inside_cons, inside_nil]
      grind
    · simp only [inside_append, inside_cons, inside_nil]
      grind

variable {client : Nat} {mem : Memory}

variable {i : Nat} {w : Walk}

theorem mem_option_reads
    (h : i ∈ w.reads) : i ∈ (w.option client mem optptr).reads := by
  unfold Walk.option
  split
  · exact mem_append_left _ h
  · split
    · exact mem_append_left _ h
    · exact h

theorem walk_reads_mono {last : Int} :
    ∀ {rounds optptr : Nat} {w w' : Walk}, walk client mem last rounds optptr w = some w' →
      ∀ i ∈ w.reads, i ∈ w'.reads := by
  intro rounds
  induction rounds with
  | zero =>
    intro optptr w w' h i hi
    unfold walk at h
    split at h
    · cases h
    · cases h
      exact hi
  | succ rounds ih =>
    intro optptr w w' h i hi
    unfold walk at h
    split at h
    · by_cases hend : mem optptr = DHCP_OPTION_END
      · grind
      · simp only [if_neg hend] at h
        refine ih h i (mem_append_left _ (mem_option_reads ?_))
        exact mem_append_left _ hi
    · cases h
      exact hi

theorem walk_reads_code {last : Int} {rounds : Nat}
    {w' : Walk} (h : walk client mem last (rounds + 1) optptr w = some w')
    (hlast : (optptr : Int) < last) : optptr ∈ w'.reads := by
  unfold walk at h
  rw [if_pos hlast] at h
  by_cases hend : mem optptr = DHCP_OPTION_END
  · simp only [if_pos hend, Option.some.injEq] at h
    subst h
    simp
  · simp only [if_neg hend] at h
    refine walk_reads_mono h optptr (mem_append_left _ (mem_option_reads ?_))
    simp

/-- **The walk stays inside the message exactly if its options are complete.** -/
theorem walk_reads {msg : List UInt8} {last : Int} (lo : Nat)
    (hmem : ∀ i < msg.length, msg[i]? = some (mem i)) :
    ∀ (rounds optptr : Nat) (w w' : Walk), lo ≤ optptr →
      walk client mem last rounds optptr w = some w' →
        (Inside lo msg.length w'.reads ↔
          Inside lo msg.length w.reads ∧ Complete (msg.drop optptr) (last - optptr).toNat) := by
  have hdrop : ∀ i < msg.length, msg.drop i = mem i :: msg.drop (i + 1) := fun i hi => by
    rw [drop_eq_getElem_cons hi]
    congr 1
    exact Option.some.inj ((getElem?_eq_getElem hi).symm.trans (hmem i hi))
  intro rounds
  induction rounds with
  | zero =>
    intro optptr w w' hlo h
    unfold walk at h
    split at h
    · cases h
    · cases h
      rw [show (last - optptr).toNat = 0 by omega]
      simp only [Complete.done, and_true]
  | succ rounds ih =>
    intro optptr w w' hlo h
    have hcode := walk_reads_code h
    unfold walk at h
    split at h
    case isFalse hlast =>
      cases h
      rw [show (last - optptr).toNat = 0 by omega]
      simp only [Complete.done, and_true]
    case isTrue hlast =>
      obtain ⟨left, hleft⟩ : ∃ left, (last - optptr).toNat = left + 1 :=
        ⟨(last - optptr).toNat - 1, by omega⟩
      rw [hleft]
      by_cases hin : optptr < msg.length
      · rw [hdrop optptr hin]
        by_cases hend : mem optptr = DHCP_OPTION_END
        · simp only [if_pos hend, Option.some.injEq] at h
          subst h
          simp only [inside_append, inside_cons, inside_nil, hend, complete_end, and_true]
          exact ⟨fun h => h.1, fun h => ⟨h, hlo, hin⟩⟩
        · simp only [if_neg hend] at h
          have hnext := ih _ _ _ (by omega) h
          have hread := option_reads client mem msg.length w hlo
          have htwo := two_le_optionSize (mem optptr)
          rw [hnext, complete_option hend]
          simp only [inside_append, inside_cons, inside_nil, and_true, length_drop]
          by_cases hsize : optptr + optionSize (mem optptr) ≤ msg.length
          · have hnth : (msg.drop (optptr + 1))[0]? = some (mem (optptr + 1)) := by
              rw [getElem?_drop]
              exact hmem _ (by omega)
            rw [hnth, ← hdrop optptr hin]
            simp only [Option.mem_some_iff, forall_eq', drop_drop]
            rw [show (last - ((optptr + ((mem (optptr + 1)).toNat + 2) : Nat) : Int)).toNat =
              left + 1 - ((mem (optptr + 1)).toNat + 2) by omega]
            grind
          · grind
      · constructor
        · intro hw
          exact absurd (hw optptr (hcode hlast)).2 hin
        · rintro ⟨-, hc⟩
          rw [drop_eq_nil_of_le (by omega)] at hc
          exact absurd hc not_complete_nil

/-! ## The memory -/

variable {offset : Nat} {bs : List UInt8}

theorem mem_bytesAt {w : Nat × UInt8} (h : w ∈ bytesAt offset bs) :
    offset ≤ w.1 ∧ w.1 < offset + bs.length := by
  unfold bytesAt at h
  obtain ⟨e, he, rfl⟩ := mem_map.mp h
  have := mem_zipIdx he
  dsimp only
  omega

theorem bytesAt_cons (offset : Nat) (b : UInt8) (bs : List UInt8) :
    bytesAt offset (b :: bs) = (offset, b) :: bytesAt (offset + 1) bs := by
  unfold bytesAt
  rw [zipIdx_cons, map_cons]
  congr 1
  rw [zipIdx_succ, map_map]
  apply map_congr_left
  intro e _
  simp only [Function.comp_apply]
  congr 1
  omega

@[simp] theorem bytesAt_fst (offset : Nat) (bs : List UInt8) :
    (bytesAt offset bs).map Prod.fst = (List.range bs.length).map (offset + ·) := by
  unfold bytesAt
  rw [map_map]
  refine ext_getElem (by simp) fun i h1 h2 => ?_
  simp

theorem store_append (xs ys : List (Nat × UInt8)) (mem : Memory) :
    store (xs ++ ys) mem = store ys (store xs mem) := foldl_append

theorem store_of_notMem {writes : List (Nat × UInt8)} (h : ∀ w ∈ writes, w.1 ≠ i) :
    ∀ mem : Memory, store writes mem i = mem i := by
  induction writes with
  | nil => exact fun mem => rfl
  | cons w rest ih =>
    intro mem
    have hw : ¬ i = w.1 := fun he => h w mem_cons_self he.symm
    have hrest := ih (fun w' hw' => h w' (mem_cons_of_mem w hw'))
    calc store (w :: rest) mem i = store rest (fun j => if j = w.1 then w.2 else mem j) i := rfl
      _ = (if i = w.1 then w.2 else mem i) := hrest _
      _ = mem i := if_neg hw

theorem store_bytesAt (offset : Nat) (bs : List UInt8) (mem : Memory) (i : Nat) :
    store (bytesAt offset bs) mem i =
      if offset ≤ i then bs[i - offset]?.getD (mem i) else mem i := by
  induction bs generalizing offset mem with
  | nil =>
    show mem i = _
    split <;> simp
  | cons b rest ih =>
    rw [bytesAt_cons]
    show store (bytesAt (offset + 1) rest) (fun j => if j = offset then b else mem j) i = _
    rw [ih]
    rcases Nat.lt_trichotomy i offset with hi | rfl | hi
    · rw [if_neg (by omega), if_neg (by omega), if_neg (by omega)]
    · rw [if_neg (by omega)]
      simp
    · have hne : ¬ i = offset := by omega
      rw [if_pos (Nat.succ_le_of_lt hi), if_pos (Nat.le_of_lt hi),
        show i - offset = i - (offset + 1) + 1 by omega, getElem?_cons_succ, if_neg hne]

/-! ## The reply -/

/-- What an `OptionsBuffer` has written lies in front of its iterator. -/
structure OptionsBuffer.Ok (first : Nat) (b : OptionsBuffer) : Prop where
  first_le : first ≤ b.it
  it_le : b.it ≤ b.last
  inside : ∀ w ∈ b.writes, first ≤ w.1 ∧ w.1 < b.it

namespace OptionsBuffer

variable {b : OptionsBuffer}

theorem ok_add {first : Nat} (h : b.Ok first) (o : UInt8 × List UInt8) :
    (b.add o).Ok first := by
  obtain ⟨code, data⟩ := o
  simp only [OptionsBuffer.add]
  split
  · exact h
  · split
    · exact h
    · rename_i hroom
      have := h.first_le
      have := h.it_le
      refine ⟨by dsimp only; omega, by dsimp only; omega, ?_⟩
      intro w hw
      rcases mem_append.mp hw with hw | hw
      · have := h.inside w hw
        dsimp only
        omega
      · have := mem_bytesAt hw
        simp only [length_cons] at this
        dsimp only
        omega

theorem add_last (b : OptionsBuffer) (o : UInt8 × List UInt8) : (b.add o).last = b.last := by
  obtain ⟨code, data⟩ := o
  simp only [OptionsBuffer.add]
  split
  · rfl
  · split <;> rfl

theorem ok_addCode {first : Nat} (h : b.Ok first) (code : UInt8) :
    (b.addCode code).Ok first := by
  unfold OptionsBuffer.addCode
  have := h.first_le
  have := h.it_le
  split
  · refine ⟨by dsimp only; omega, by dsimp only; omega, ?_⟩
    intro w hw
    rcases mem_append.mp hw with hw | hw
    · have := h.inside w hw
      dsimp only
      omega
    · grind
  · exact h

theorem addCode_last (b : OptionsBuffer) (code : UInt8) : (b.addCode code).last = b.last := by
  unfold OptionsBuffer.addCode
  split <;> rfl

theorem ok_foldl {first : Nat} (os : List (UInt8 × List UInt8))
    (h : b.Ok first) :
    (os.foldl (fun b o => b.add o) b).Ok first ∧
      (os.foldl (fun b o => b.add o) b).last = b.last := by
  induction os generalizing b with
  | nil => exact ⟨h, rfl⟩
  | cons o rest ih =>
    have hrest := ih (ok_add h o)
    exact ⟨hrest.1, hrest.2.trans (add_last b o)⟩

end OptionsBuffer

theorem sendOptions_ok (c : Settings) (type : ReplyType) :
    (sendOptions c type).Ok (OPTIONS + 4) ∧ (sendOptions c type).last = MSG_SIZE := by
  have hnil : (OptionsBuffer.mk (OPTIONS + 4) MSG_SIZE []).Ok (OPTIONS + 4) :=
    ⟨Nat.le_refl _, by decide, by simp⟩
  have hfirst := OptionsBuffer.ok_add hnil (53, [type.code])
  unfold sendOptions
  rw [OptionsBuffer.addCode_last]
  split
  · exact ⟨OptionsBuffer.ok_addCode hfirst _, rfl⟩
  · have hall := OptionsBuffer.ok_foldl (offerOptions c ++ c.custom_offer_options) hfirst
    exact ⟨OptionsBuffer.ok_addCode hall.1 _, hall.2⟩

theorem bytesAt_inside (h : offset + bs.length ≤ MSG_SIZE) :
    ∀ w ∈ bytesAt offset bs, w.1 < MSG_SIZE :=
  fun _ hw => Nat.lt_of_lt_of_le (mem_bytesAt hw).2 h

/-- **A reply is written inside the message.** -/
theorem replyWrites_inside (c : Settings) (type : ReplyType) (client : Nat) :
    ∀ w ∈ replyWrites c type client, w.1 < MSG_SIZE := by
  have hfields : ∀ w ∈ createMsg client, w.1 < MSG_SIZE := by
    simp only [createMsg, forall_mem_append]
    refine ⟨⟨⟨⟨⟨⟨⟨⟨⟨⟨by decide, ?_⟩, ?_⟩, ?_⟩, ?_⟩, ?_⟩, ?_⟩, ?_⟩, ?_⟩, ?_⟩, ?_⟩
    all_goals
      apply bytesAt_inside
      simp only [length_replicate, length_cons, length_nil, le32_length,
        MagicCookie]
      decide
  intro w hw
  rcases mem_append.mp hw with hw | hw
  · exact hfields w hw
  · obtain ⟨hok, hlast⟩ := sendOptions_ok c type
    have := hok.inside w hw
    have := hok.it_le
    omega

/-! ## A packet -/

theorem copyPacket_eq (p : List (List UInt8)) (heap : Memory) (i : Nat) :
    copyPacket p heap i = (received p)[i]?.getD (if i < MSG_SIZE then 0 else heap i) := by
  unfold copyPacket
  rw [store_bytesAt, if_pos (Nat.zero_le i), Nat.sub_zero]

variable {p : List (List UInt8)} {heap : Memory}

theorem copyPacket_eq_iff {b : UInt8}
    (hi : i < MSG_SIZE) (hb : b ≠ 0) : copyPacket p heap i = b ↔ (received p)[i]? = some b := by
  rw [copyPacket_eq, if_pos hi]
  cases (received p)[i]? with
  | none => simp [hb.symm]
  | some c => simp

theorem take_drop_four {a b c d : UInt8} :
    (bs.drop offset).take 4 = [a, b, c, d] ↔
      bs[offset]? = some a ∧ bs[offset + 1]? = some b ∧ bs[offset + 2]? = some c ∧
        bs[offset + 3]? = some d := by
  constructor
  · intro h
    have hget : ∀ k < 4, bs[offset + k]? = [a, b, c, d][k]? := fun k hk => by
      rw [← h, getElem?_take, if_pos hk, getElem?_drop]
    exact ⟨hget 0 (by omega), hget 1 (by omega), hget 2 (by omega), hget 3 (by omega)⟩
  · rintro ⟨ha, hb, hc, hd⟩
    apply ext_getElem?
    intro k
    rw [getElem?_take]
    split
    · rename_i hk
      rw [getElem?_drop]
      match k, hk with
      | 0, _ => exact ha
      | 1, _ => exact hb
      | 2, _ => exact hc
      | 3, _ => exact hd
    · exact (getElem?_eq_none (by simp; omega)).symm

theorem cookie_iff (p : List (List UInt8)) (heap : Memory) :
    load (copyPacket p heap) OPTIONS 4 = MagicCookie ↔
      ((received p).drop OPTIONS).take 4 = MagicCookie := by
  have hcookie : MagicCookie = [0x63, 0x82, 0x53, 0x63] := by decide
  have hload : ∀ mem : Memory, load mem OPTIONS 4 =
      [mem OPTIONS, mem (OPTIONS + 1), mem (OPTIONS + 2), mem (OPTIONS + 3)] := fun _ => rfl
  rw [hcookie, hload, take_drop_four]
  simp only [cons.injEq, and_true]
  rw [copyPacket_eq_iff (by decide) (by decide), copyPacket_eq_iff (by decide) (by decide),
    copyPacket_eq_iff (by decide) (by decide), copyPacket_eq_iff (by decide) (by decide)]

namespace DhcpServer

theorem answer_spec (mem : Memory) (parsed : Option (Walk × DhcpsState)) (s : DhcpServer) :
    (∀ i ∈ (answer mem parsed s).writes, i < MSG_SIZE) ∧
      (answer mem parsed s).reads = (parsed.map fun e => e.1.reads).getD [] := by
  unfold answer
  split
  · exact ⟨by simp, rfl⟩
  · refine ⟨?_, rfl⟩
    intro i hi
    obtain ⟨w, hw, rfl⟩ := mem_map.mp hi
    exact replyWrites_inside s.settings _ _ w hw

theorem parseOptions_isSome (client : Nat) (renew : Bool) (mem : Memory) (optptr : Nat)
    (len : Int) :
    ∃ w, walk client mem (optptr + len) len.toNat optptr ⟨0, .idle, []⟩ = some w ∧
      parseOptions client renew mem optptr len = some (w, stateOf renew w) := by
  obtain ⟨w, hw⟩ := walk_isSome client mem (optptr + len) len.toNat optptr ⟨0, .idle, []⟩
    (by omega)
  refine ⟨w, hw, ?_⟩
  unfold parseOptions
  rw [hw]
  rfl

/-- What `parse_msg` leaves of the server, from the update and what is asked
for. -/
def settle (bssid : List UInt8) (ip : Nat) (state : DhcpsState) (updated : Nat × DhcpServer) :
    DhcpServer :=
  if state = .release then
    { updated.2 with plist := clientLeave bssid ip true updated.2.plist, client_address := ip }
  else { updated.2 with client_address := updated.1 }

theorem parseMsg_of_cookie (len : Int) (s : DhcpServer)
    (hcookie : load mem OPTIONS 4 = MagicCookie) :
    ∃ addr s' w, s.clientUpdate (load mem CHADDR 6) (loadAddr mem CIADDR) = (addr, s') ∧
      walk addr mem ((OPTIONS + 4 : Nat) + len) len.toNat (OPTIONS + 4) ⟨0, .idle, []⟩ = some w ∧
      s.parseMsg mem len = some (some (w, stateOf s'.renew w),
        settle (load mem CHADDR 6) (loadAddr mem CIADDR) (stateOf s'.renew w) (addr, s')) := by
  rcases hupdate : s.clientUpdate (load mem CHADDR 6) (loadAddr mem CIADDR) with ⟨addr, s'⟩
  obtain ⟨w, hw, hparse⟩ := parseOptions_isSome addr s'.renew mem (OPTIONS + 4) len
  refine ⟨addr, s', w, rfl, hw, ?_⟩
  unfold parseMsg settle
  simp only [if_pos hcookie, hupdate, hparse, Option.map_some]
  split <;> rfl

variable {s : DhcpServer}

theorem parseMsg_of_no_cookie {len : Int}
    (hcookie : load mem OPTIONS 4 ≠ MagicCookie) : s.parseMsg mem len = some (none, s) :=
  if_neg hcookie

theorem handleDhcp_of_cookie
    (hmem : copyPacket p heap = mem) (hcookie : load mem OPTIONS 4 = MagicCookie) :
    ∃ addr s' w h, s.clientUpdate (load mem CHADDR 6) (loadAddr mem CIADDR) = (addr, s') ∧
      walk addr mem ((OPTIONS + 4 : Nat) + optionsLength p) (optionsLength p).toNat (OPTIONS + 4)
        ⟨0, .idle, []⟩ = some w ∧
      s.handleDhcp p heap = some h ∧
      h.server = settle (load mem CHADDR 6) (loadAddr mem CIADDR) (stateOf s'.renew w) (addr, s') ∧
      h.reply = (replyTo (stateOf s'.renew w)).map fun type =>
        (type, load (store (replyWrites h.server.settings type h.server.client_address) mem) 0
          MSG_SIZE) := by
  obtain ⟨addr, s', w, hupdate, hw, hparse⟩ := parseMsg_of_cookie
    (optionsLength p) s hcookie
  unfold handleDhcp
  rw [hmem]
  simp only [hparse, Option.map_some]
  refine ⟨addr, s', w, _, hupdate, hw, rfl, ?_⟩
  unfold answer
  simp only [Option.bind_some]
  cases replyTo (stateOf s'.renew w) with
  | none => exact ⟨rfl, rfl⟩
  | some type => exact ⟨rfl, rfl⟩

theorem handleDhcp_of_no_cookie
    (hcookie : load (copyPacket p heap) OPTIONS 4 ≠ MagicCookie) :
    ∃ h, s.handleDhcp p heap = some h ∧ h.server = s ∧ h.reply = none := by
  simp only [handleDhcp, parseMsg_of_no_cookie hcookie, Option.map_some]
  exact ⟨_, rfl, rfl, rfl⟩

theorem handleDhcp_spec (p : List (List UInt8)) (heap : Memory) (s : DhcpServer) :
    ∃ h reply, s.handleDhcp p heap = some h ∧
      h.writes = (bytesAt 0 (received p)).map Prod.fst ++ reply ∧ (∀ i ∈ reply, i < MSG_SIZE) ∧
      (Inside (OPTIONS + 4) (received p).length h.reads ↔
        (((received p).drop OPTIONS).take 4 = MagicCookie →
          Complete ((received p).drop (OPTIONS + 4)) (optionsLength p).toNat)) := by
  have hmem : ∀ i < (received p).length, (received p)[i]? = some (copyPacket p heap i) := by
    intro i hi
    rw [copyPacket_eq, getElem?_eq_getElem hi]
    rfl
  rw [← cookie_iff p heap]
  simp only [handleDhcp]
  by_cases hcookie : load (copyPacket p heap) OPTIONS 4 = MagicCookie
  · obtain ⟨addr, s', w, -, hw, hparse⟩ := parseMsg_of_cookie (optionsLength p) s
      hcookie
    obtain ⟨hwrites, hreads⟩ := answer_spec (copyPacket p heap) (some (w, stateOf s'.renew w))
      (settle (load (copyPacket p heap) CHADDR 6) (loadAddr (copyPacket p heap) CIADDR)
        (stateOf s'.renew w) (addr, s'))
    have hwalk := walk_reads (OPTIONS + 4) hmem _ _ _ _ (Nat.le_refl _) hw
    rw [show ((OPTIONS + 4 : Nat) + optionsLength p - (OPTIONS + 4 : Nat)).toNat =
      (optionsLength p).toNat by omega] at hwalk
    rw [hparse]
    refine ⟨_, _, rfl, rfl, hwrites, ?_⟩
    simp only [hreads]
    simpa [hcookie] using hwalk
  · rw [parseMsg_of_no_cookie hcookie]
    obtain ⟨hwrites, hreads⟩ := answer_spec (copyPacket p heap) none s
    refine ⟨_, _, rfl, rfl, hwrites, ?_⟩
    simp only [hreads]
    simp [hcookie]

/-- A packet is handled to its end, inside the message and the options received. -/
def HandledInside (p : List (List UInt8)) (heap : Memory) (s : DhcpServer) : Prop :=
  ∃ h, s.handleDhcp p heap = some h ∧ (∀ i ∈ h.writes, i < MSG_SIZE) ∧
    ∀ i ∈ h.reads, OPTIONS + 4 ≤ i ∧ i < (received p).length

/-- **A packet is handled inside the message exactly if it fits there and its
options are complete.** -/
theorem handledInside_iff (p : List (List UInt8)) (heap : Memory) (s : DhcpServer) :
    s.HandledInside p heap ↔
      (received p).length ≤ MSG_SIZE ∧
        (((received p).drop OPTIONS).take 4 = MagicCookie →
          Complete ((received p).drop (OPTIONS + 4)) (optionsLength p).toNat) := by
  obtain ⟨h, reply, heq, hwrites, hreply, hreads⟩ := handleDhcp_spec p heap s
  have hcopy : (∀ i ∈ (bytesAt 0 (received p)).map Prod.fst, i < MSG_SIZE) ↔
      (received p).length ≤ MSG_SIZE := by
    simp only [bytesAt_fst, mem_map, mem_range]
    constructor
    · intro h
      refine Nat.le_of_not_lt fun hlong => ?_
      have := h MSG_SIZE ⟨MSG_SIZE, hlong, Nat.zero_add _⟩
      omega
    · rintro h i ⟨j, hj, rfl⟩
      omega
  rw [← hcopy, ← hreads]
  unfold HandledInside
  simp only [heq, Option.some.injEq, exists_eq_left', hwrites, forall_mem_append]
  exact ⟨fun h => ⟨h.1.1, h.2⟩, fun h => ⟨⟨h.1, hreply⟩, h.2⟩⟩

def truncated : List (List UInt8) :=
  [List.replicate 236 0 ++ MagicCookie ++ [53, 1, 1, 12]]

theorem received_truncated :
    received truncated = List.replicate 236 0 ++ (MagicCookie ++ [53, 1, 1, 12]) := by
  simp only [received, truncated, take_succ_cons, take_nil, flatten_cons,
    flatten_nil, append_nil, append_assoc]

theorem drop_truncated : (received truncated).drop OPTIONS = MagicCookie ++ [53, 1, 1, 12] := by
  rw [received_truncated]
  exact drop_left' length_replicate

theorem optionsLength_truncated : optionsLength truncated = 4 := by
  have hflat : truncated.flatten = received truncated := by
    simp only [received, truncated, take_succ_cons, take_nil]
  have hlen : totLen truncated = 244 := by
    unfold totLen
    rw [hflat, received_truncated, length_append, length_replicate]
    rfl
  unfold optionsLength
  rw [hlen]
  decide

/-- A packet of zeros that is one byte longer than a message leaves the message,
and a `DISCOVER` with a truncated last option makes the walk leave the packet. -/
theorem not_handledInside :
    ¬ softap.HandledInside [List.replicate 549 0] (fun _ => 0) ∧
      ¬ softap.HandledInside truncated (fun _ => 0) := by
  constructor
  · rintro ⟨h, heq, hwrites, -⟩
    obtain ⟨h', reply, heq', hcopy, -⟩ :=
      handleDhcp_spec [replicate 549 0] (fun _ => 0) softap
    obtain rfl := Option.some.inj (heq.symm.trans heq')
    have hlen : (received [replicate 549 0]).length = 549 := by
      simp only [received, take_succ_cons, take_nil, flatten_cons,
        flatten_nil, append_nil, length_replicate]
    have hlast : 548 ∈ h.writes := by
      rw [hcopy, bytesAt_fst, hlen]
      exact mem_append_left _ (mem_map.mpr ⟨548, mem_range.mpr (by omega), rfl⟩)
    exact absurd (hwrites 548 hlast) (by decide)
  · rintro ⟨h, heq, -, hreads⟩
    obtain ⟨h', reply, heq', -, -, hcomplete⟩ := handleDhcp_spec truncated (fun _ => 0) softap
    obtain rfl := Option.some.inj (heq.symm.trans heq')
    have hc := hcomplete.mp hreads (by rw [drop_truncated]; rfl)
    have hlast : ¬ Complete [12] 1 := by
      intro h
      cases h
    rw [optionsLength_truncated, ← drop_drop, drop_truncated] at hc
    exact hlast (((complete_option (by decide)).mp hc).2 1 rfl)

end DhcpServer

end Dhcp
