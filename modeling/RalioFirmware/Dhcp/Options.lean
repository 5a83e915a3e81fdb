import RalioFirmware.Dhcp.Safety

/-!
# The options of a reply

The server and the callback of `onSendOptions` add options one after another, each of which is
written whole or not at all.  The END option is added last, by the same rule: a reply whose options
use up their area has none.
-/

open Word List

namespace Dhcp

/-! ## Additions -/

/-- What `add` is called with: a code and its data, or a code alone. -/
inductive Addition
  | option (code : UInt8) (data : List UInt8)
  | code (c : UInt8)
deriving DecidableEq

namespace Addition

def bytes : Addition → List UInt8
  | .option c data => c :: UInt8.ofNat data.length :: data
  | .code c => [c]

def short : Addition → Bool
  | .option _ data => data.length < 255
  | .code _ => true

end Addition

/-- One call of `add`. -/
def OptionsBuffer.addition (b : OptionsBuffer) : Addition → OptionsBuffer
  | .option code data => b.add (code, data)
  | .code c => b.addCode c

def kept : Nat → List Addition → List Addition
  | _, [] => []
  | room, a :: rest =>
    if a.short ∧ a.bytes.length ≤ room then a :: kept (room - a.bytes.length) rest
    else kept room rest

def wholes (additions : List Addition) : List UInt8 := additions.flatMap Addition.bytes

@[simp] theorem wholes_nil : wholes [] = [] := rfl

@[simp] theorem wholes_cons (a : Addition) (rest : List Addition) :
    wholes (a :: rest) = a.bytes ++ wholes rest := rfl

@[simp] theorem wholes_append (l r : List Addition) : wholes (l ++ r) = wholes l ++ wholes r :=
  flatMap_append

theorem wholes_kept_le (room : Nat) (additions : List Addition) :
    (wholes (kept room additions)).length ≤ room := by
  induction additions generalizing room with
  | nil => exact Nat.zero_le room
  | cons a rest ih =>
    rw [kept]
    split
    · rename_i hfits
      have hrest := ih (room - a.bytes.length)
      rw [wholes_cons, length_append]
      omega
    · exact ih room

theorem kept_sublist (room : Nat) (additions : List Addition) :
    (kept room additions).Sublist additions := by
  induction additions generalizing room with
  | nil => exact List.Sublist.refl _
  | cons a rest ih =>
    rw [kept]
    split
    · exact (ih _).cons_cons a
    · exact (ih room).cons a

theorem kept_append (room : Nat) (l r : List Addition) :
    kept room (l ++ r) = kept room l ++ kept (room - (wholes (kept room l)).length) r := by
  induction l generalizing room with
  | nil => rfl
  | cons a rest ih =>
    rw [cons_append, kept, kept]
    split
    · rw [ih, wholes_cons, length_append, cons_append, Nat.sub_sub]
    · exact ih room

theorem bytesAt_append (offset : Nat) (l r : List UInt8) :
    bytesAt offset (l ++ r) = bytesAt offset l ++ bytesAt (offset + l.length) r := by
  induction l generalizing offset with
  | nil => rfl
  | cons b rest ih =>
    rw [cons_append, bytesAt_cons, bytesAt_cons, ih, cons_append, length_cons,
      Nat.add_assoc, Nat.add_comm 1]

namespace OptionsBuffer

/-- **One addition** is written whole, or leaves the buffer as it was. -/
theorem addition_eq {b : OptionsBuffer} (h : b.it ≤ b.last) (a : Addition) :
    b.addition a = if a.short ∧ a.bytes.length ≤ b.last - b.it then
      { b with it := b.it + a.bytes.length, writes := b.writes ++ bytesAt b.it a.bytes } else
          b := by
  cases a with
  | option code data =>
    have hlength : (Addition.option code data).bytes.length = data.length + 2 := rfl
    have hshort : (Addition.option code data).short = decide (data.length < 255) := rfl
    rw [addition, add, hlength, hshort]
    simp only [decide_eq_true_eq]
    by_cases hlong : data.length ≥ 255
    · rw [if_pos hlong, if_neg (by omega)]
    · rw [if_neg hlong]
      by_cases hroom : b.last - b.it < data.length + 2
      · rw [if_pos hroom, if_neg (by omega)]
      · rw [if_neg hroom, if_pos (by omega)]
        rfl
  | code c =>
    have hlength : (Addition.code c).bytes.length = 1 := rfl
    rw [addition, addCode, hlength]
    by_cases hfull : b.it = b.last
    · grind
    · rw [if_pos hfull, if_pos ⟨rfl, by omega⟩]
      rfl

/-- **A sequence of additions** comes to those that had room, whole and in their order. -/
theorem additions_eq (additions : List Addition) {b : OptionsBuffer} (h : b.it ≤ b.last) :
    additions.foldl addition b =
      { b with
        it := b.it + (wholes (kept (b.last - b.it) additions)).length
        writes := b.writes ++ bytesAt b.it (wholes (kept (b.last - b.it) additions)) } := by
  induction additions generalizing b with
  | nil => simp [kept, bytesAt]
  | cons a rest ih =>
    rw [foldl_cons, addition_eq h, kept]
    by_cases hfits : a.short ∧ a.bytes.length ≤ b.last - b.it
    · have hroom := hfits.2
      rw [if_pos hfits, if_pos hfits, ih (by dsimp only; omega)]
      simp only [wholes_cons, length_append, bytesAt_append, append_assoc,
        Nat.sub_sub, Nat.add_assoc]
    · rw [if_neg hfits, if_neg hfits]
      exact ih h

end OptionsBuffer

/-! ## Replies -/

def replyAdditions (c : Settings) (type : ReplyType) (custom : List Addition) : List Addition :=
  .option 53 [type.code] ::
    if type = .nak then [] else (offerOptions c).map (fun o => .option o.1 o.2) ++ custom

/-- The options of a reply, as `sendOptions` writes them, with a callback that adds anything. -/
def sendAdditions (c : Settings) (type : ReplyType) (custom : List Addition) : OptionsBuffer :=
  let options := ⟨OPTIONS + 4, MSG_SIZE, []⟩
  let options := OptionsBuffer.add (53, [type.code]) options
  let options :=
    if type = .nak then options
    else custom.foldl OptionsBuffer.addition
      ((offerOptions c).foldl (fun b o => b.add o) options)
  options.addCode DHCP_OPTION_END

theorem sendAdditions_eq (c : Settings) (type : ReplyType) (custom : List Addition) :
    sendAdditions c type custom =
      (replyAdditions c type custom ++ [Addition.code DHCP_OPTION_END]).foldl OptionsBuffer.addition
        ⟨OPTIONS + 4, MSG_SIZE, []⟩ := by
  have hlast : ∀ b : OptionsBuffer, [Addition.code DHCP_OPTION_END].foldl OptionsBuffer.addition b =
      b.addCode DHCP_OPTION_END := fun _ => rfl
  rw [sendAdditions, foldl_append, replyAdditions, hlast]
  by_cases hnak : type = .nak
  · rw [if_pos hnak, if_pos hnak]
    rfl
  · rw [if_neg hnak, if_neg hnak, foldl_cons, foldl_append, foldl_map]
    rfl

/-- The bytes of the options area behind the magic cookie. -/
def AREA : Nat := MSG_SIZE - (OPTIONS + 4)

def replyOptions (c : Settings) (type : ReplyType) (custom : List Addition) : List Addition :=
  kept AREA (replyAdditions c type custom ++ [.code DHCP_OPTION_END])

def Ended (options : List Addition) : Prop :=
  (options.reverse.dropWhile fun a => a = .code 0).head? = some (.code DHCP_OPTION_END)

instance (options : List Addition) : Decidable (Ended options) :=
  inferInstanceAs (Decidable (_ = _))

theorem ended_iff (room : Nat) (additions : List Addition) :
    Ended (kept room (additions ++ [.code DHCP_OPTION_END])) ↔
      ((wholes (kept room additions)).length = room → Ended (kept room additions)) := by
  have hle := wholes_kept_le room additions
  rw [kept_append, Ended]
  by_cases hfull : (wholes (kept room additions)).length = room
  · have hnone : kept (room - (wholes (kept room additions)).length)
        [.code DHCP_OPTION_END] = [] := by
      rw [hfull, Nat.sub_self, kept, if_neg (by decide)]
      rfl
    rw [hnone, append_nil]
    exact ⟨fun h _ => h, fun h => h hfull⟩
  · have hsome : kept (room - (wholes (kept room additions)).length)
        [.code DHCP_OPTION_END] = [.code DHCP_OPTION_END] := by
      have hone : (Addition.code DHCP_OPTION_END).bytes.length = 1 := rfl
      rw [kept, if_pos ⟨rfl, by omega⟩, kept]
    rw [hsome, reverse_append]
    exact iff_of_true rfl fun h => absurd h hfull

theorem sendAdditions_writes (c : Settings) (type : ReplyType) (custom : List Addition) :
    (sendAdditions c type custom).writes =
      bytesAt (OPTIONS + 4) (wholes (replyOptions c type custom)) := by
  rw [sendAdditions_eq, OptionsBuffer.additions_eq _ (by decide)]
  rfl

theorem createMsg_area (client : Nat) (mem : Memory) {i : Nat} (h : i < AREA) :
    store (createMsg client) mem (OPTIONS + 4 + i) = 0 := by
  have hi : i < 308 := h
  have hcookie : MagicCookie[OPTIONS + 4 + i - OPTIONS]? = none := by
    refine getElem?_eq_none ?_
    show 4 ≤ _
    omega
  have hzero : (replicate 312 (0 : UInt8))[OPTIONS + 4 + i - OPTIONS]? = some 0 := by
    rw [getElem?_replicate, if_pos (by omega)]
  rw [createMsg, store_append, store_bytesAt, if_pos (by omega), hcookie, store_append,
    store_bytesAt, if_pos (by omega), hzero]
  rfl

/-- **What the area of a reply holds**: the options one after another, and zeros behind them. -/
theorem load_reply (c : Settings) (type : ReplyType) (custom : List Addition) (client : Nat)
    (mem : Memory) :
    load (store (createMsg client ++ (sendAdditions c type custom).writes) mem) (OPTIONS + 4) AREA =
      wholes (replyOptions c type custom) ++
        List.replicate (AREA - (wholes (replyOptions c type custom)).length) 0 := by
  have hle : (wholes (replyOptions c type custom)).length ≤ AREA := wholes_kept_le _ _
  rw [sendAdditions_writes, store_append, load]
  refine ext_getElem? fun i => ?_
  rw [getElem?_map]
  by_cases hi : i < AREA
  · rw [getElem?_range hi, Option.map_some, store_bytesAt, if_pos (by omega),
      createMsg_area client mem hi, Nat.add_sub_cancel_left]
    by_cases hin : i < (wholes (replyOptions c type custom)).length
    · rw [getElem?_append_left hin, getElem?_eq_getElem hin, Option.getD_some]
    · rw [getElem?_append_right (by omega), getElem?_replicate, if_pos (by omega),
        getElem?_eq_none (by omega), Option.getD_none]
  · rw [getElem?_eq_none (by simpa using hi), getElem?_eq_none]
    · rfl
    · grind

/-- **Options are written whole or not at all**, and stay in their area; and a reply ends with the
END option just where the options before it leave room for that, or the callback has ended them
itself. -/
theorem options_whole (it room : Nat) (additions : List Addition) (c : Settings) (type : ReplyType)
    (custom : List Addition) (client : Nat) (mem : Memory) :
    (additions.foldl OptionsBuffer.addition ⟨it, it + room, []⟩).writes =
      bytesAt it (wholes (kept room additions)) ∧
    (wholes (kept room additions)).length ≤ room ∧ (kept room additions).Sublist additions ∧
    load (store (createMsg client ++ (sendAdditions c type custom).writes) mem) (OPTIONS + 4) AREA =
      wholes (replyOptions c type custom) ++
        List.replicate (AREA - (wholes (replyOptions c type custom)).length) 0 ∧
    (Ended (replyOptions c type custom) ↔
      ((wholes (kept AREA (replyAdditions c type custom))).length = AREA →
        Ended (kept AREA (replyAdditions c type custom)))) := by
  refine ⟨?_, wholes_kept_le room additions, kept_sublist room additions,
    load_reply c type custom client mem, ended_iff AREA _⟩
  rw [OptionsBuffer.additions_eq additions (Nat.le_add_right it room)]
  simp only [Nat.add_sub_cancel_left, nil_append]

def vendorOptions : List Addition :=
  [.option 43 (List.replicate 254 7), .option 43 (List.replicate 10 7)]

/-- The offer with them uses up its area, and has no END option. -/
theorem not_options_ended :
    ¬ ∀ (c : Settings) (type : ReplyType) (custom : List Addition),
      Ended (replyOptions c type custom) := by
  intro h
  have hended := (ended_iff AREA _).mp
    (h ⟨0x0104A8C0, 0x00FFFFFF, 0x0104A8C0, 720, false, 0, []⟩ .offer vendorOptions)
  revert hended
  decide +kernel

end Dhcp
