import RalioFirmware.Dhcp.Leases

/-!
# The addresses that the DHCP server replies with

The address that an update comes to goes through `client_address` into the reply,
also if the update has refused: then it is 0.0.0.0, and a `DISCOVER` is answered
with it all the same, as is a `REQUEST` for 0.0.0.0, or one that a renewal before
it has left the flag for.  An address that is granted is one of the range as long
as the pool holds no others.
-/

open Word List

namespace Dhcp

/-! ## The field of the reply -/

/-- The address in `yiaddr`. -/
def yiaddr (msg : List UInt8) : Nat := ofLe ((msg.drop YIADDR).take 4)

theorem load_drop_take (mem : Memory) {offset : Nat} (h : offset + 4 ≤ MSG_SIZE) :
    ((load mem 0 MSG_SIZE).drop offset).take 4 = load mem offset 4 := by
  apply ext_getElem?
  intro i
  unfold load
  by_cases hi : i < 4
  · grind
  · rw [getElem?_eq_none (by simp; omega), getElem?_eq_none (by simp; omega)]

/-- Writes that stay off `yiaddr`. -/
def OffYiaddr (writes : List (Nat × UInt8)) : Prop :=
  ∀ w ∈ writes, w.1 < YIADDR ∨ YIADDR + 4 ≤ w.1

theorem offYiaddr_bytesAt {offset : Nat} {bs : List UInt8}
    (h : offset + bs.length ≤ YIADDR ∨ YIADDR + 4 ≤ offset) : OffYiaddr (bytesAt offset bs) := by
  intro w hw
  have := mem_bytesAt hw
  omega

theorem offYiaddr_append {xs ys : List (Nat × UInt8)} (hx : OffYiaddr xs) (hy : OffYiaddr ys) :
    OffYiaddr (xs ++ ys) :=
  forall_mem_append.mpr ⟨hx, hy⟩

theorem replyWrites_split (c : Settings) (type : ReplyType) (client : Nat) :
    ∃ front back, replyWrites c type client =
      front ++ (bytesAt YIADDR (le32 client) ++ back) ∧ OffYiaddr back := by
  refine ⟨[(OP, 2), (HTYPE, 1), (HLEN, 6), (HOPS, 0)] ++ (bytesAt SECS [0, 0] ++
      bytesAt FLAGS [128, 0]), bytesAt CIADDR (replicate 4 0) ++
      (bytesAt SIADDR (replicate 4 0) ++ (bytesAt GIADDR (replicate 4 0) ++
      (bytesAt SNAME (replicate 64 0) ++ (bytesAt FILE (replicate 128 0) ++
      (bytesAt OPTIONS (replicate 312 0) ++ (bytesAt OPTIONS MagicCookie ++
      (sendOptions c type).writes)))))), ?_, ?_⟩
  · simp only [replyWrites, createMsg, append_assoc]
  · have hoptions : OffYiaddr (sendOptions c type).writes := by
      intro w hw
      have := (sendOptions_ok c type).1.inside w hw
      have : YIADDR + 4 ≤ OPTIONS := by decide
      omega
    refine offYiaddr_append ?_ (offYiaddr_append ?_ (offYiaddr_append ?_ (offYiaddr_append ?_
      (offYiaddr_append ?_ (offYiaddr_append ?_ (offYiaddr_append ?_ hoptions))))))
    all_goals
      apply offYiaddr_bytesAt
      simp only [length_replicate, MagicCookie, le32_length]
      decide

theorem yiaddr_reply (c : Settings) (type : ReplyType) {client : Nat} (mem : Memory)
    (hclient : client < 4294967296) :
    yiaddr (load (store (replyWrites c type client) mem) 0 MSG_SIZE) = client := by
  obtain ⟨front, back, hsplit, hback⟩ := replyWrites_split c type client
  have hload : load (store (replyWrites c type client) mem) YIADDR 4 = le32 client := by
    rw [hsplit, store_append, store_append]
    generalize store front mem = m
    apply ext_getElem?
    intro i
    unfold load
    by_cases hi : i < 4
    · have hoff : ∀ w ∈ back, w.1 ≠ YIADDR + i := by
        intro w hw heq
        have := hback w hw
        omega
      rw [getElem?_map, getElem?_range hi, Option.map_some, store_of_notMem hoff,
        store_bytesAt, if_pos (by omega), Nat.add_sub_cancel_left,
        getElem?_eq_getElem (by simpa using hi)]
      rfl
    · rw [getElem?_eq_none (by simp; omega), getElem?_eq_none (by simp; omega)]
  unfold yiaddr
  rw [load_drop_take _ (by decide), hload, ofLe_le32, u32_of_lt hclient]

/-! ## Replies that are sound -/

namespace DhcpServer

/-- An address for a client: one of the range, not the server's own, and noted in
the pool for the client. -/
structure SoundFor (chaddr : List UInt8) (addr : Nat) (s : DhcpServer) : Prop where
  nonzero : addr ≠ IPADDR_ANY
  within : htonl s.start_ip ≤ htonl addr ∧ htonl addr ≤ htonl s.end_ip
  other : addr ≠ s.settings.ip_addr
  recorded : ∃ e ∈ s.plist, e.ip = addr ∧ e.mac = chaddr

/-- An offer or an acknowledgement carries such an address, for the client that has
asked. -/
def SoundReply (mem : Memory) (h : Handled) : Prop :=
  ∀ type msg, h.reply = some (type, msg) → type ≠ .nak →
    SoundFor (load mem CHADDR 6) (yiaddr msg) h.server

def Granted (bssid : List UInt8) (ip : Nat) (s : DhcpServer) : Prop :=
  if ip = IPADDR_ANY then
    s.Known bssid ∨ ∃ free, Within s.start_ip s.end_ip free ∧ ∀ e ∈ s.plist, e.ip ≠ free
  else ip ≠ IPADDR_BROADCAST ∧ Within s.start_ip s.end_ip ip ∧
    ∀ e ∈ s.plist, e.ip = ip → e.mac = bssid ∨ e.state = .offline

/-- Without an address the message asks for nothing that is answered with one. -/
def Quiet (mem : Memory) (len : Int) (renew : Bool) : Prop :=
  ∀ parsed ∈ parseOptions IPADDR_ANY renew mem (OPTIONS + 4) len,
    parsed.2 ≠ .offer ∧ parsed.2 ≠ .ack

/-- The leases that a message places are of the range, and there is an address for
the client, or it asks for none. -/
def FitsReply (a : Action) (s : DhcpServer) : Prop :=
  FitsUpTo s.end_ip a s ∧
    match a with
    | .packet p heap =>
      let mem := copyPacket p heap
      let ip := loadAddr mem CIADDR
      s.start_ip ≠ IPADDR_ANY ∧
        (load mem OPTIONS 4 = MagicCookie → s.Granted (load mem CHADDR 6) ip ∨
          Quiet mem (optionsLength p) (if ip = IPADDR_BROADCAST then s.renew else false))
    | .tick => True

variable {ip : Nat} {bssid : List UInt8} {release : Prop} {s : DhcpServer}
  {r : Nat × DhcpServer}

theorem updated_address (h : Registered s.start_ip s.end_ip s.plist)
    (hstart : s.start_ip ≠ IPADDR_ANY) (hplaces : s.Places s.end_ip bssid ip release)
    (hr : Updated bssid ip s r) :
    (r.1 = IPADDR_ANY ∧ r.2.renew = (if ip = IPADDR_BROADCAST then s.renew else false) ∧
        ¬ s.Granted bssid ip) ∨
      (Within s.start_ip s.end_ip r.1 ∧ ∃ e ∈ r.2.plist, e.ip = r.1 ∧ e.mac = bssid) ∨
      release := by
  have hstart' : 0 < s.start_ip := Nat.pos_of_ne_zero hstart
  cases hr with
  | broadcast hip =>
    refine Or.inl ⟨rfl, (if_pos hip).symm, ?_⟩
    unfold Granted
    rw [if_neg (by rw [hip]; decide)]
    exact fun hg => hg.1 hip
  | held hcast e he hip hmac hstate =>
    refine Or.inl ⟨rfl, (if_neg hcast).symm, ?_⟩
    have hany : ip ≠ IPADDR_ANY := by
      have := (h.allowed e he).1
      unfold IPADDR_ANY
      omega
    unfold Granted
    rw [if_neg hany]
    rintro ⟨-, -, hfree⟩
    rcases hfree e he hip with heq | hoff
    · exact hmac heq
    · rw [hoff] at hstate
      cases hstate
  | exhausted hcast hnew hlt =>
    refine Or.inl ⟨rfl, (if_neg hcast).symm, ?_⟩
    unfold Granted
    by_cases hany : ip = IPADDR_ANY
    · rw [if_pos hany]
      rintro (⟨e, he, hmac⟩ | ⟨free, hwithin, hnot⟩)
      · exact hnew e he hmac
      · unfold wanted at hlt
        rw [if_pos hany] at hlt
        have htop : Within s.start_ip 4294967295 free := by
          unfold Within at hwithin ⊢
          omega
        have hgap := (gap_unknown h hnew htop hnot).1.2.1
        have := hwithin.2.1
        omega
    · rw [if_neg hany]
      rintro ⟨-, hwithin, -⟩
      have hwanted : s.wanted bssid ip = ip := if_neg hany
      have := hwithin.2.1
      omega
  | renewed i e hi hmac hip =>
    have hlt := (List.getElem?_eq_some_iff.mp hi).1
    refine Or.inr (Or.inl ⟨hip ▸ h.allowed e (mem_of_getElem? hi), ?_⟩)
    exact ⟨s.online .dynamic e, mem_set hlt _, hip, hmac⟩
  | swapped i m e mine hne hi hm hmac hip =>
    have hlt := (List.getElem?_eq_some_iff.mp hi).1
    refine Or.inr (Or.inl ⟨hip ▸ h.allowed e (mem_of_getElem? hi), ?_⟩)
    refine ⟨s.online .static { e with mac := bssid }, ?_, hip, rfl⟩
    refine mem_eraseIdx_iff_getElem?.mpr ⟨i, hne, ?_⟩
    rw [getElem?_set_self hlt]
  | taken i e hi hnew hip =>
    have hlt := (List.getElem?_eq_some_iff.mp hi).1
    refine Or.inr (Or.inl ⟨hip ▸ h.allowed e (mem_of_getElem? hi), ?_⟩)
    exact ⟨s.online .static { e with mac := bssid }, mem_set hlt _, hip, rfl⟩
  | moved hcast m mine hm hmac hfree =>
    rcases moved_place h hplaces hcast ⟨mine, mem_of_getElem? hm, hmac⟩ hfree with
      ⟨hwithin, -⟩ | ⟨hrelease, -⟩
    · refine Or.inr (Or.inl ⟨hwithin, s.online (leaseType ip)
        { mine with ip := s.wanted bssid ip }, ?_, rfl, hmac⟩)
      simp only [nodeInsert_eq]
      exact Registry.mem_insert.mpr (Or.inl rfl)
    · exact Or.inr (Or.inr hrelease)
  | entered hcast hnew hfree hle =>
    rcases entered_place h (Nat.le_refl _) hplaces hcast hnew hfree hle with
      ⟨hwithin, -⟩ | ⟨hrelease, -⟩
    · refine Or.inr (Or.inl ⟨hwithin, ⟨s.wanted bssid ip, bssid, s.settings.lease_time,
        leaseType ip, .online⟩, ?_, rfl, rfl⟩)
      simp only [nodeInsert_eq]
      exact Registry.mem_insert.mpr (Or.inl rfl)
    · exact Or.inr (Or.inr hrelease)

structure InRange (s : DhcpServer) : Prop where
  inv : s.Inv s.end_ip
  good : GoodRange s.settings.ip_addr s.start_ip s.end_ip

theorem step_inRange (a : Action) (s : DhcpServer) (h : s.InRange) (hfits : FitsReply a s) :
    (step a s).InRange := by
  have hrange := step_sameRange a h.inv.registered.owners
  refine ⟨?_, ?_⟩
  · rw [hrange.end_ip]
    exact step_inv a s h.inv hfits.1
  · rw [hrange.settings, hrange.start_ip, hrange.end_ip]
    exact h.good

theorem soundFor_of_within {chaddr : List UInt8} {addr : Nat} {s : DhcpServer}
    (hgood : GoodRange s.settings.ip_addr s.start_ip s.end_ip) (hstart : s.start_ip ≠ IPADDR_ANY)
    (hwithin : Within s.start_ip s.end_ip addr)
    (hrec : ∃ e ∈ s.plist, e.ip = addr ∧ e.mac = chaddr) : SoundFor chaddr addr s := by
  obtain ⟨hge, hle, hlt, hnet⟩ := hwithin
  obtain ⟨⟨-, -, hend, hendnet⟩, -, houtside⟩ := hgood
  have hfirst : s.start_ip < 4294967296 := Nat.lt_of_le_of_lt hge hlt
  have hpos : 0 < s.start_ip := Nat.pos_of_ne_zero hstart
  refine ⟨?_, ⟨?_, ?_⟩, ?_, hrec⟩
  · exact Nat.ne_of_gt (Nat.lt_of_lt_of_le hpos hge)
  · refine Nat.le_of_not_lt fun hgt => ?_
    have := (htonl_lt_iff hlt hfirst hnet).mp hgt
    omega
  · refine Nat.le_of_not_lt fun hgt => ?_
    have := (htonl_lt_iff hend hlt (hendnet.trans hnet.symm)).mp hgt
    omega
  · omega

theorem replyTo_asks {state : DhcpsState} {type : ReplyType} (h : replyTo state = some type)
    (hnak : type ≠ .nak) : state = .offer ∨ state = .ack := by
  cases state <;> cases h
  · exact Or.inl rfl
  · exact Or.inr rfl
  · exact absurd rfl hnak

/-- **A message that fits is answered soundly.** -/
theorem handleDhcp_sound {p : List (List UInt8)} {heap : Memory} {s : DhcpServer} (h : s.InRange)
    (hfits : FitsReply (.packet p heap) s) {handled : Handled}
    (heq : s.handleDhcp p heap = some handled) :
    SoundReply (copyPacket p heap) handled := by
  intro type msg hreply hnak
  obtain ⟨handled', heq', -, hcases⟩ := handleDhcp_cases p heap h.inv.registered.owners
  obtain rfl := Option.some.inj (heq.symm.trans heq')
  rcases hcases with ⟨hcookie, r, w, hanswer⟩ | ⟨-, -, hnone⟩
  · obtain ⟨hplaces, hstart, hasks⟩ := hfits
    have hreply' := hanswer.reply
    rw [hreply] at hreply'
    obtain ⟨type', htype, hmsg⟩ := Option.map_eq_some_iff.mp hreply'.symm
    obtain ⟨rfl, rfl⟩ := Prod.mk.inj hmsg
    have hstate := replyTo_asks htype hnak
    have hkept : stateOf r.2.renew w ≠ .release := by
      rcases hstate with hstate | hstate <;> rw [hstate] <;> simp
    have hserver : handled.server = { r.2 with client_address := r.1 } := by
      rw [hanswer.server]
      exact if_neg hkept
    have hrange := updated_sameRange hanswer.updated
    rcases updated_address h.inv.registered hstart (hplaces hcookie) hanswer.updated with
      ⟨hany, hrenew, hrefused⟩ | ⟨hwithin, hrec⟩ | hrelease
    · have hquiet := (hasks hcookie).resolve_left hrefused
      have hparse : parseOptions IPADDR_ANY r.2.renew (copyPacket p heap) (OPTIONS + 4)
          (optionsLength p) = some (w, stateOf r.2.renew w) := by
        have hw := hanswer.walked
        rw [hany] at hw
        unfold parseOptions
        rw [hw]
        rfl
      rw [← hrenew] at hquiet
      have hnot := hquiet _ hparse
      rcases hstate with hstate | hstate
      · exact absurd hstate hnot.1
      · exact absurd hstate hnot.2
    · rw [hserver, yiaddr_reply _ _ _ hwithin.2.2.1]
      refine soundFor_of_within ?_ ?_ ?_ hrec
      · show GoodRange r.2.settings.ip_addr r.2.start_ip r.2.end_ip
        rw [hrange.settings, hrange.start_ip, hrange.end_ip]
        exact h.good
      · exact hrange.start_ip.symm ▸ hstart
      · show Within r.2.start_ip r.2.end_ip r.1
        rw [hrange.start_ip, hrange.end_ip]
        exact hwithin
    · have htype := (messageType_eq hanswer.walked).symm.trans hrelease
      exact absurd (stateOf_release htype) hkept
  · rw [hnone] at hreply
    cases hreply

/-- **Replies are sound in every run of messages that fit.** -/
theorem run_soundReply (c : Settings) (enable : Bool) (start_ip end_ip : Nat)
    (hip : c.ip_addr < 4294967296) (hstart : start_ip < 4294967296) (hend : end_ip < 4294967296)
    (actions : List Action) (p : List (List UInt8)) (heap : Memory)
    (hfit : Runs.AllFit step FitsReply (actions ++ [.packet p heap])
      (start c enable start_ip end_ip)) :
    ∀ handled ∈ (Runs.after step actions (start c enable start_ip end_ip)).handleDhcp p heap,
      SoundReply (copyPacket p heap) handled := by
  intro handled heq
  obtain ⟨hbefore, hlast⟩ := Runs.allFit_append.mp hfit
  have hinit : (start c enable start_ip end_ip).InRange :=
    ⟨start_inv (Nat.le_refl _), initLease_good enable hip hstart hend⟩
  exact handleDhcp_sound (Runs.invariant step_inRange hinit hbefore) hlast.1 heq

theorem second_discover_fit : Runs.AllFit step FitsReply
    ([discover 1 [0, 0, 0, 0], .tick] ++ [discover 2 [192, 168, 4, 9]]) softap := by
  refine ⟨⟨fun _ => ?_, by decide, fun _ => Or.inl ?_⟩, ⟨trivial, trivial⟩,
    ⟨fun _ => ?_, by decide +kernel, fun _ => Or.inl ?_⟩, trivial⟩
  · unfold Places
    rw [if_pos (by decide +kernel)]
    exact Or.inr ⟨0x0204A8C0, by decide +kernel, by decide +kernel⟩
  · unfold Granted
    rw [if_pos (by decide +kernel)]
    exact Or.inr ⟨0x0204A8C0, by decide +kernel, by decide +kernel⟩
  · unfold Places
    rw [if_neg (by decide +kernel)]
    exact Or.inr (Or.inl (by decide +kernel))
  · unfold Granted
    rw [if_neg (by decide +kernel)]
    exact ⟨by decide +kernel, by decide +kernel, by decide +kernel⟩

theorem run_soundReply_two : ∃ handled, (Runs.after step [discover 1 [0, 0, 0, 0], .tick]
    softap).handleDhcp (discoverPacket 2 [192, 168, 4, 9]) (fun _ => 0) = some handled ∧
      SoundReply (copyPacket (discoverPacket 2 [192, 168, 4, 9]) fun _ => 0) handled := by
  obtain ⟨handled, -, heq, -⟩ := handleDhcp_spec (discoverPacket 2 [192, 168, 4, 9]) (fun _ => 0)
    (Runs.after step [discover 1 [0, 0, 0, 0], .tick] softap)
  exact ⟨handled, heq, run_soundReply _ _ _ _ (by decide) (by decide) (by decide) _ _ _
    second_discover_fit handled heq⟩

/-- A `DISCOVER` with the broadcast address in `ciaddr` is offered 0.0.0.0. -/
theorem broadcast_unsound : ∃ handled,
    softap.handleDhcp (discoverPacket 1 [255, 255, 255, 255]) (fun _ => 0) = some handled ∧
      ¬ SoundReply (copyPacket (discoverPacket 1 [255, 255, 255, 255]) fun _ => 0) handled := by
  have hreply : ((softap.handleDhcp (discoverPacket 1 [255, 255, 255, 255]) fun _ => 0).bind
      Handled.reply).map (fun r => (r.1, yiaddr r.2)) = some (.offer, 0) := by decide +kernel
  obtain ⟨r, hr, hoffer⟩ := Option.map_eq_some_iff.mp hreply
  obtain ⟨handled, heq, hr⟩ := Option.bind_eq_some_iff.mp hr
  obtain ⟨htype, haddr⟩ := Prod.mk.inj hoffer
  refine ⟨handled, heq, fun hsound => ?_⟩
  exact (hsound r.1 r.2 hr (by rw [htype]; decide)).nonzero haddr

end DhcpServer

end Dhcp
