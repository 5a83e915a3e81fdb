import Mathlib.Data.List.TakeWhile
import RalioFirmware.Dhcp.Pool
import RalioFirmware.Dhcp.Safety

/-!
# The leases over a run of the DHCP server

A client is free to name an address in `ciaddr`, and the update places it in the
pool without a look at the range.  An address of another network, or one below
the range, stands in front of the addresses that the search starts from, and the
next two clients are given the same lease.  As long as the addresses that are
placed are of the range's network and not below it, the pool stays a registry.
-/

open Word List

namespace Dhcp

/-! ## The pool stays a registry -/

/-- The pool in order, its addresses from `first` to `last`. -/
abbrev Registered (first last : Nat) (l : List DhcpsPool) : Prop :=
  Registry.Ok DhcpsPool.ip DhcpsPool.mac (Within first last) l

def DhcpsPool.key (e : DhcpsPool) : Nat × List UInt8 := (e.ip, e.mac)

theorem nodeInsert_eq (node : DhcpsPool) (l : List DhcpsPool) :
    nodeInsert node l = Registry.insert DhcpsPool.ip node l := by
  induction l with
  | nil => rfl
  | cons e rest ih =>
    unfold nodeInsert Registry.insert
    rw [ih]

variable {l : List DhcpsPool}

theorem clientLeave_sublist {bssid : List UInt8} {ip : Nat} {force : Bool} :
    ((clientLeave bssid ip force l).map DhcpsPool.key).Sublist (l.map DhcpsPool.key) := by
  induction l with
  | nil => exact List.Sublist.refl _
  | cons e rest ih =>
    unfold clientLeave
    split
    · split
      · exact sublist_cons_self _ _
      · exact List.Sublist.refl _
    · exact ih.cons_cons _

theorem killOldest_sublist (l : List DhcpsPool) :
    ((killOldest l).map DhcpsPool.key).Sublist (l.map DhcpsPool.key) := by
  cases l with
  | nil => exact List.Sublist.refl _
  | cons e rest =>
    have hmarked : (rest.modify (rest.length - 1) fun last => { last with state := .offline }).map
        DhcpsPool.key = rest.map DhcpsPool.key := by
      apply ext_getElem?
      intro i
      rw [getElem?_map, getElem?_map, getElem?_modify]
      cases rest[i]? with
      | none => rfl
      | some a =>
        simp only [Option.map_some]
        split <;> rfl
    refine List.Sublist.cons_cons _ ?_
    rw [← hmarked]
    exact (eraseIdx_sublist _ _).map _

theorem coarseTmr_sublist (l : List DhcpsPool) :
    ((coarseTmr l).map DhcpsPool.key).Sublist (l.map DhcpsPool.key) := by
  have haged : (l.map fun e : DhcpsPool =>
      if e.type = .dynamic then { e with lease_timer := sub32 e.lease_timer 1 } else e).map
        DhcpsPool.key = l.map DhcpsPool.key := by
    rw [map_map]
    apply map_congr_left
    intro e _
    simp only [Function.comp_apply, DhcpsPool.key]
    split <;> rfl
  unfold coarseTmr
  generalize (l.map fun e : DhcpsPool =>
    if e.type = .dynamic then { e with lease_timer := sub32 e.lease_timer 1 } else e) = aged
    at haged ⊢
  have hkept := (filter_sublist (p := fun e : DhcpsPool => decide (e.lease_timer ≠ 0))
    (l := aged)).map DhcpsPool.key
  rw [haged] at hkept
  simp only
  split
  · exact (killOldest_sublist _).trans hkept
  · exact hkept

theorem clientLeave_nodeInsert {e : DhcpsPool}
    (hnew : ∀ a ∈ l, a.mac ≠ e.mac) :
    clientLeave e.mac e.ip true (nodeInsert e l) = l := by
  induction l with
  | nil => simp [nodeInsert, clientLeave]
  | cons a rest ih =>
    have ha := hnew a mem_cons_self
    unfold nodeInsert
    split
    · simp [clientLeave]
    · unfold clientLeave
      rw [if_neg (fun h => ha h.1), ih fun b hb => hnew b (mem_cons_of_mem a hb)]

/-! ## The address of a lease -/

theorem before_split {bssid : List UInt8} (h : ∃ e ∈ l, e.mac = bssid) :
    ∃ mine rest, l = before bssid l ++ mine :: rest ∧ mine.mac = bssid := by
  induction l with
  | nil =>
    obtain ⟨e, he, -⟩ := h
    cases he
  | cons a rest ih =>
    by_cases ha : a.mac = bssid
    · exact ⟨a, rest, by simp [ha], ha⟩
    · obtain ⟨e, he, hmac⟩ := h
      have hrest : ∃ e ∈ rest, e.mac = bssid := by grind
      obtain ⟨mine, tail, heq, hmine⟩ := ih hrest
      refine ⟨mine, tail, ?_, hmine⟩
      have hfront : before bssid (a :: rest) = a :: before bssid rest :=
        takeWhile_cons_of_pos (by simp [ha])
      rw [hfront, cons_append, ← heq]

theorem gap_known {first last : Nat} {bssid : List UInt8}
    (h : Registered first last l) (hknown : ∃ e ∈ l, e.mac = bssid) :
    Within first last (gap first (before bssid l)) ∧
      ∀ e ∈ l, e.mac ≠ bssid → e.ip ≠ gap first (before bssid l) := by
  obtain ⟨mine, rest, heq, hmine⟩ := before_split hknown
  generalize before bssid l = front at heq ⊢
  subst heq
  have hsorted := pairwise_append.mp h.sorted
  obtain ⟨hrest, -⟩ := pairwise_cons.mp hsorted.2.1
  have hwithin : Within first last mine.ip := h.allowed mine (by simp)
  have htop : ∀ {n ip : Nat}, Within first n ip → Within first 4294967295 ip := by
    intro n ip hw
    unfold Within at hw ⊢
    omega
  obtain ⟨hgap, hnone⟩ := gap_spec hsorted.1
    (fun e he => htop (h.allowed e (mem_append_left _ he))) (htop hwithin)
    (fun e he => Nat.ne_of_lt (hsorted.2.2 e he mine mem_cons_self))
  refine ⟨hgap.mono hwithin.2.1, ?_⟩
  intro e he hmac
  rcases mem_append.mp he with he | he
  · exact hnone e he
  · rcases mem_cons.mp he with rfl | he
    · exact absurd hmine hmac
    · have := hrest e he
      have := hgap.2.1
      omega

theorem gap_unknown {first last free : Nat} {bssid : List UInt8}
    (h : Registered first last l) (hnew : ∀ e ∈ l, e.mac ≠ bssid)
    (hfree : Within first 4294967295 free) (hnot : ∀ e ∈ l, e.ip ≠ free) :
    Within first free (gap first (before bssid l)) ∧
      ∀ e ∈ l, e.ip ≠ gap first (before bssid l) := by
  have hall : before bssid l = l := by
    refine takeWhile_eq_self_iff.mpr fun e he => ?_
    simp [hnew e he]
  rw [hall]
  refine gap_spec h.sorted (fun e he => ?_) hfree hnot
  have := h.allowed e he
  unfold Within at this ⊢
  omega

/-! ## An update -/

namespace DhcpServer

def Known (bssid : List UInt8) (s : DhcpServer) : Prop := ∃ e ∈ s.plist, e.mac = bssid

def HasFree (s : DhcpServer) : Prop :=
  ∃ free, Within s.start_ip 4294967295 free ∧ ∀ e ∈ s.plist, e.ip ≠ free

/-- A lease that an update places has its address between the start of the range
and `last`, or leaves the pool again with the same message. -/
def Places (last : Nat) (bssid : List UInt8) (ip : Nat) (release : Prop) (s : DhcpServer) : Prop :=
  if ip = IPADDR_ANY then s.Known bssid ∨ s.HasFree
  else ip = IPADDR_BROADCAST ∨ Within s.start_ip last ip ∨
    (¬ s.Known bssid ∧ s.end_ip < ip) ∨ release

variable {last ip : Nat} {bssid : List UInt8} {release : Prop} {s : DhcpServer}
  {r : Nat × DhcpServer}

theorem wanted_known (h : Registered s.start_ip last s.plist) (hany : ip = IPADDR_ANY)
    (hknown : s.Known bssid) :
    Within s.start_ip last (s.wanted bssid ip) ∧
      ∀ e ∈ s.plist, e.mac ≠ bssid → e.ip ≠ s.wanted bssid ip := by
  unfold wanted
  rw [if_pos hany]
  exact gap_known h hknown

theorem wanted_new (h : Registered s.start_ip last s.plist) (hany : ip = IPADDR_ANY)
    (hnew : ∀ e ∈ s.plist, e.mac ≠ bssid) (hfree : s.HasFree)
    (hend : s.wanted bssid ip ≤ last) :
    Within s.start_ip last (s.wanted bssid ip) ∧ ∀ e ∈ s.plist, e.ip ≠ s.wanted bssid ip := by
  obtain ⟨free, hwithin, hnot⟩ := hfree
  unfold wanted at hend ⊢
  rw [if_pos hany] at hend ⊢
  obtain ⟨hgap, hnone⟩ := gap_unknown h hnew hwithin hnot
  exact ⟨⟨hgap.1, hend, hgap.2.2⟩, hnone⟩

theorem moved_place (h : Registered s.start_ip last s.plist)
    (hplaces : s.Places last bssid ip release) (hcast : ip ≠ IPADDR_BROADCAST)
    (hknown : s.Known bssid) (hfree : ip ≠ IPADDR_ANY → ∀ e ∈ s.plist, e.ip ≠ ip) :
    (Within s.start_ip last (s.wanted bssid ip) ∧
      ∀ e ∈ s.plist, e.mac ≠ bssid → e.ip ≠ s.wanted bssid ip) ∨
        (release ∧ s.wanted bssid ip = ip) := by
  by_cases hany : ip = IPADDR_ANY
  · exact Or.inl (wanted_known h hany hknown)
  · have hwanted : s.wanted bssid ip = ip := if_neg hany
    unfold Places at hplaces
    rw [if_neg hany] at hplaces
    rw [hwanted]
    rcases hplaces with hbroadcast | hwithin | ⟨hunknown, -⟩ | hrelease
    · exact absurd hbroadcast hcast
    · exact Or.inl ⟨hwithin, fun e he _ => hfree hany e he⟩
    · exact absurd hknown hunknown
    · exact Or.inr ⟨hrelease, rfl⟩

theorem entered_place (h : Registered s.start_ip last s.plist) (hend : s.end_ip ≤ last)
    (hplaces : s.Places last bssid ip release) (hcast : ip ≠ IPADDR_BROADCAST)
    (hnew : ∀ e ∈ s.plist, e.mac ≠ bssid)
    (hfree : ip ≠ IPADDR_ANY → ∀ e ∈ s.plist, e.ip ≠ ip)
    (hle : s.wanted bssid ip ≤ s.end_ip) :
    (Within s.start_ip last (s.wanted bssid ip) ∧ ∀ e ∈ s.plist, e.ip ≠ s.wanted bssid ip) ∨
      (release ∧ s.wanted bssid ip = ip) := by
  have hunknown : ¬ s.Known bssid := fun ⟨a, ha, hmac⟩ => hnew a ha hmac
  unfold Places at hplaces
  by_cases hany : ip = IPADDR_ANY
  · rw [if_pos hany] at hplaces
    exact Or.inl (wanted_new h hany hnew (hplaces.resolve_left hunknown) (Nat.le_trans hle hend))
  · have hwanted : s.wanted bssid ip = ip := if_neg hany
    rw [if_neg hany] at hplaces
    rw [hwanted] at hle ⊢
    rcases hplaces with hbroadcast | hwithin | ⟨-, hgt⟩ | hrelease
    · exact absurd hbroadcast hcast
    · exact Or.inl ⟨hwithin, hfree hany⟩
    · omega
    · exact Or.inr ⟨hrelease, rfl⟩

theorem map_key_set {i : Nat} {e e' : DhcpsPool} (hi : l[i]? = some e)
    (hkey : e'.key = e.key) : (l.set i e').map DhcpsPool.key = l.map DhcpsPool.key := by
  obtain ⟨hlt, rfl⟩ := List.getElem?_eq_some_iff.mp hi
  rw [map_set, hkey]
  have hset := @List.set_getElem_self _ (l.map DhcpsPool.key) i (by simpa using hlt)
  rwa [getElem_map] at hset

/-- The part of the pool that an update leaves, if it places a lease elsewhere. -/
structure Placed (bssid : List UInt8) (ip : Nat) (l : List DhcpsPool) (e : DhcpsPool)
    (l' : List DhcpsPool) : Prop where
  pool : l' = nodeInsert e l
  ip : e.ip = ip
  mac : e.mac = bssid
  new : ∀ a ∈ l, a.mac ≠ bssid

/-- **An update keeps the pool a registry**, but for a lease that is released
with the same message. -/
theorem updated_registered (h : Registered s.start_ip last s.plist) (hend : s.end_ip ≤ last)
    (hplaces : s.Places last bssid ip release) (hr : Updated bssid ip s r) :
    Registered s.start_ip last r.2.plist ∨
      (release ∧ ∃ l e, Registered s.start_ip last l ∧ Placed bssid ip l e r.2.plist) := by
  cases hr with
  | broadcast => exact Or.inl h
  | held => exact Or.inl h
  | exhausted => exact Or.inl h
  | renewed i e hi =>
    refine Or.inl (h.of_sublist ?_)
    show List.Sublist ((s.plist.set i (s.online .dynamic e)).map DhcpsPool.key) _
    rw [map_key_set hi (show (s.online .dynamic e).key = e.key from rfl)]
    exact List.Sublist.refl _
  | swapped i m e mine hne hi hm hmac =>
    exact Or.inl (h.takeover hne hi hm rfl hmac.symm)
  | taken i e hi hnew => exact Or.inl (h.set hi rfl hnew)
  | moved hcast m mine hm hmac hfree =>
    have hrest := h.sublist (eraseIdx_sublist s.plist m)
    have hnew : ∀ a ∈ s.plist.eraseIdx m, a.mac ≠ bssid := by
      rw [← hmac]
      exact h.owner_of_eraseIdx hm
    rcases moved_place h hplaces hcast ⟨mine, mem_of_getElem? hm, hmac⟩ hfree with
      ⟨hwithin, hnone⟩ | ⟨hrelease, hwanted⟩
    · refine Or.inl ?_
      simp only [nodeInsert_eq]
      refine hrest.insert hwithin (fun a ha => ?_) (fun a ha => hmac ▸ hnew a ha)
      exact hnone a ((eraseIdx_sublist s.plist m).subset ha) (hnew a ha)
    · exact Or.inr ⟨hrelease, _, _, hrest, rfl, hwanted, hmac, hnew⟩
  | entered hcast hnew hfree hle =>
    rcases entered_place h hend hplaces hcast hnew hfree hle with
      ⟨hwithin, hnone⟩ | ⟨hrelease, hwanted⟩
    · refine Or.inl ?_
      simp only [nodeInsert_eq]
      exact h.insert hwithin hnone hnew
    · exact Or.inr ⟨hrelease, _, _, h, rfl, hwanted, rfl, hnew⟩

theorem settle_registered (h : Registered s.start_ip last s.plist) (hend : s.end_ip ≤ last)
    {state : DhcpsState} (hrelease : release → state = .release)
    (hplaces : s.Places last bssid ip release) (hr : Updated bssid ip s r) :
    Registered s.start_ip last (settle bssid ip state r).plist := by
  rcases updated_registered h hend hplaces hr with hpool | ⟨hrel, l, e, hl, hplaced⟩
  · unfold settle
    split
    · exact hpool.of_sublist clientLeave_sublist
    · exact hpool
  · unfold settle
    rw [if_pos (hrelease hrel)]
    obtain ⟨hinsert, rfl, rfl, hnew⟩ := hplaced
    simp only [hinsert]
    rw [clientLeave_nodeInsert hnew]
    exact hl

structure SameRange (s s' : DhcpServer) : Prop where
  start_ip : s'.start_ip = s.start_ip
  end_ip : s'.end_ip = s.end_ip
  settings : s'.settings = s.settings

theorem updated_sameRange (hr : Updated bssid ip s r) : SameRange s r.2 := by
  cases hr <;> exact ⟨rfl, rfl, rfl⟩

theorem settle_sameRange {state : DhcpsState} (hr : Updated bssid ip s r) :
    SameRange s (settle bssid ip state r) := by
  obtain ⟨hstart, hend, hsettings⟩ := updated_sameRange hr
  unfold settle
  split
  · exact ⟨hstart, hend, hsettings⟩
  · exact ⟨hstart, hend, hsettings⟩

/-! ## Runs -/

/-- What happens to a server: a packet, with what is on the heap behind its copy,
or a tick of the lease timer. -/
inductive Action
  | packet (p : List (List UInt8)) (heap : Memory)
  | tick

def step : Action → DhcpServer → DhcpServer
  | .packet p heap, s => ((s.handleDhcp p heap).map Handled.server).getD s
  | .tick, s => { s with plist := coarseTmr s.plist }

def messageType (mem : Memory) (len : Int) : UInt8 :=
  ((walk 0 mem ((OPTIONS + 4 : Nat) + len) len.toNat (OPTIONS + 4) ⟨0, .idle, []⟩).map
    Walk.type).getD 0

/-- A packet with the cookie places a lease only from the start of the range to
`last`, or releases it. -/
def FitsUpTo (last : Nat) (a : Action) (s : DhcpServer) : Prop :=
  match a with
  | .packet p heap =>
    let mem := copyPacket p heap
    load mem OPTIONS 4 = MagicCookie →
      s.Places last (load mem CHADDR 6) (loadAddr mem CIADDR)
        (messageType mem (optionsLength p) = 7)
  | .tick => True

/-- The pool is a registry up to `last`, and the range ends there or before. -/
structure Inv (last : Nat) (s : DhcpServer) : Prop where
  registered : Registered s.start_ip last s.plist
  end_le : s.end_ip ≤ last

theorem walk_type {client client' : Nat} {mem : Memory} {l : Int} :
    ∀ {rounds optptr : Nat} {w w' v v' : Walk}, w.type = v.type →
      walk client mem l rounds optptr w = some w' →
      walk client' mem l rounds optptr v = some v' → w'.type = v'.type := by
  intro rounds
  induction rounds with
  | zero =>
    intro optptr w w' v v' htype hw hv
    unfold walk at hw hv
    split at hw
    · cases hw
    · rename_i hlast
      rw [if_neg hlast] at hv
      cases hw
      cases hv
      exact htype
  | succ rounds ih =>
    intro optptr w w' v v' htype hw hv
    unfold walk at hw hv
    by_cases hlast : (optptr : Int) < l
    · rw [if_pos hlast] at hw hv
      by_cases hend : mem optptr = DHCP_OPTION_END
      · grind
      · simp only [if_neg hend] at hw hv
        refine ih ?_ hw hv
        unfold Walk.option
        split
        · rfl
        · split <;> exact htype
    · grind

theorem messageType_eq {client : Nat} {mem : Memory} {len : Int} {w : Walk}
    (hw : walk client mem ((OPTIONS + 4 : Nat) + len) len.toNat (OPTIONS + 4) ⟨0, .idle, []⟩ =
      some w) : messageType mem len = w.type := by
  obtain ⟨v, hv⟩ := walk_isSome 0 mem ((OPTIONS + 4 : Nat) + len) len.toNat (OPTIONS + 4)
    ⟨0, .idle, []⟩ (by omega)
  unfold messageType
  rw [hv]
  exact walk_type rfl hv hw

theorem stateOf_release {renew : Bool} {w : Walk} (h : w.type = 7) :
    stateOf renew w = .release := by
  unfold stateOf
  rw [h]
  rfl

structure Answered (p : List (List UInt8)) (mem : Memory) (s : DhcpServer) (r : Nat × DhcpServer)
    (w : Walk) (handled : Handled) : Prop where
  updated : Updated (load mem CHADDR 6) (loadAddr mem CIADDR) s r
  walked : walk r.1 mem ((OPTIONS + 4 : Nat) + optionsLength p) (optionsLength p).toNat
    (OPTIONS + 4) ⟨0, .idle, []⟩ = some w
  server : handled.server =
    settle (load mem CHADDR 6) (loadAddr mem CIADDR) (stateOf r.2.renew w) r
  reply : handled.reply = (replyTo (stateOf r.2.renew w)).map fun type =>
    (type, load (store (replyWrites handled.server.settings type handled.server.client_address)
      mem) 0 MSG_SIZE)

theorem handleDhcp_cases (p : List (List UInt8)) (heap : Memory) {s : DhcpServer}
    (hmacs : (s.plist.map DhcpsPool.mac).Nodup) :
    ∃ handled, s.handleDhcp p heap = some handled ∧
      step (.packet p heap) s = handled.server ∧
      ((load (copyPacket p heap) OPTIONS 4 = MagicCookie ∧
          ∃ r w, Answered p (copyPacket p heap) s r w handled) ∨
        (load (copyPacket p heap) OPTIONS 4 ≠ MagicCookie ∧ handled.server = s ∧
          handled.reply = none)) := by
  have hstep : ∀ {handled}, s.handleDhcp p heap = some handled →
      step (.packet p heap) s = handled.server :=
    fun heq => congrArg (fun o => (Option.map Handled.server o).getD s) heq
  by_cases hcookie : load (copyPacket p heap) OPTIONS 4 = MagicCookie
  · obtain ⟨addr, s', w, handled, hupdate, hw, heq, hserver, hreply⟩ :=
      handleDhcp_of_cookie (s := s) rfl hcookie
    have hr := clientUpdate_cases (load (copyPacket p heap) CHADDR 6)
      (loadAddr (copyPacket p heap) CIADDR) hmacs
    rw [hupdate] at hr
    exact ⟨handled, heq, hstep heq, Or.inl ⟨hcookie, (addr, s'), w, hr, hw, hserver, hreply⟩⟩
  · obtain ⟨handled, heq, hserver, hreply⟩ := handleDhcp_of_no_cookie (s := s) hcookie
    exact ⟨handled, heq, hstep heq, Or.inr ⟨hcookie, hserver, hreply⟩⟩

theorem step_sameRange (a : Action) {s : DhcpServer} (hmacs : (s.plist.map DhcpsPool.mac).Nodup) :
    SameRange s (step a s) := by
  cases a with
  | tick => exact ⟨rfl, rfl, rfl⟩
  | packet p heap =>
    obtain ⟨handled, -, hstep, hcases⟩ := handleDhcp_cases p heap hmacs
    rw [hstep]
    rcases hcases with ⟨-, r, w, hanswer⟩ | ⟨-, hserver, -⟩
    · rw [hanswer.server]
      exact settle_sameRange hanswer.updated
    · rw [hserver]
      exact ⟨rfl, rfl, rfl⟩

/-- **One step keeps the pool a registry.** -/
theorem step_inv (a : Action) (s : DhcpServer) (h : s.Inv last) (hfits : FitsUpTo last a s) :
    (step a s).Inv last := by
  have hrange := step_sameRange a h.registered.owners
  refine ⟨?_, hrange.end_ip.symm ▸ h.end_le⟩
  rw [hrange.start_ip]
  cases a with
  | tick => exact h.registered.of_sublist (coarseTmr_sublist s.plist)
  | packet p heap =>
    obtain ⟨handled, -, hstep, hcases⟩ := handleDhcp_cases p heap h.registered.owners
    rw [hstep]
    rcases hcases with ⟨hcookie, r, w, hanswer⟩ | ⟨-, hserver, -⟩
    · rw [hanswer.server]
      refine settle_registered h.registered h.end_le ?_ (hfits hcookie) hanswer.updated
      intro htype
      exact stateOf_release ((messageType_eq hanswer.walked).symm.trans htype)
    · rw [hserver]
      exact h.registered

/-- No two leases share an address or a client, and they are in the order of
their addresses. -/
structure LeasesUnique (s : DhcpServer) : Prop where
  addresses : (s.plist.map DhcpsPool.ip).Nodup
  clients : (s.plist.map DhcpsPool.mac).Nodup
  sorted : s.plist.Pairwise fun a b => htonl a.ip < htonl b.ip

theorem Inv.leasesUnique (h : s.Inv last) : LeasesUnique s := by
  refine ⟨h.registered.positions, h.registered.owners, ?_⟩
  refine h.registered.sorted.imp_of_mem ?_
  intro a b ha hb hlt
  have ha := h.registered.allowed a ha
  have hb := h.registered.allowed b hb
  exact (htonl_lt_iff ha.2.2.1 hb.2.2.1 (ha.2.2.2.trans hb.2.2.2.symm)).mpr hlt

theorem start_inv {c : Settings} {enable : Bool} {start_ip end_ip last : Nat}
    (hend : (start c enable start_ip end_ip).end_ip ≤ last) :
    (start c enable start_ip end_ip).Inv last :=
  ⟨Registry.ok_nil, hend⟩

theorem initLease_end_lt (ip : Nat) (enable : Bool) (start_ip : Nat) {end_ip : Nat}
    (hend : end_ip < 4294967296) : (initLease ip enable start_ip end_ip).2 < 4294967296 := by
  unfold initLease
  simp only
  split
  · exact hend
  · exact htonl_lt _

/-- **Leases are unique in every run that places them in the network of the range,
not below its start.** -/
theorem run_leasesUnique (c : Settings) (enable : Bool) (start_ip end_ip : Nat)
    (hend : end_ip < 4294967296) (actions : List Action)
    (hfit : Runs.AllFit step (FitsUpTo 4294967295) actions (start c enable start_ip end_ip)) :
    LeasesUnique (Runs.after step actions (start c enable start_ip end_ip)) := by
  have hlast := initLease_end_lt c.ip_addr enable start_ip hend
  have hstart : (start c enable start_ip end_ip).Inv 4294967295 :=
    start_inv (Nat.le_of_lt_succ hlast)
  exact (Runs.invariant (fun a s hs hf => step_inv a s hs hf) hstart hfit).leasesUnique

def discoverPacket (n : UInt8) (ciaddr : List UInt8) : List (List UInt8) :=
  [[1, 1, 6, 0, 0, 0, 0, 0, 0, 0, 0, 0] ++ ciaddr ++ List.replicate 12 0 ++
    [2, 0, 0, 0, 0, n] ++ List.replicate 202 0 ++ MagicCookie ++ [53, 1, 1, 255]]

def discover (n : UInt8) (ciaddr : List UInt8) : Action :=
  .packet (discoverPacket n ciaddr) fun _ => 0

theorem two_discover_fit : Runs.AllFit step (FitsUpTo 4294967295)
    [discover 1 [0, 0, 0, 0], .tick, discover 2 [192, 168, 4, 9]] softap := by
  refine ⟨fun _ => ?_, trivial, fun _ => ?_, trivial⟩
  · unfold Places
    rw [if_pos (by decide +kernel)]
    exact Or.inr ⟨0x0204A8C0, by decide +kernel, by decide +kernel⟩
  · unfold Places
    rw [if_neg (by decide +kernel)]
    exact Or.inr (Or.inl (by decide +kernel))

theorem run_leasesUnique_two : LeasesUnique (Runs.after step
    [discover 1 [0, 0, 0, 0], .tick, discover 2 [192, 168, 4, 9]] softap) :=
  run_leasesUnique _ _ _ _ (by decide) _ two_discover_fit

/-- A station that names an address of another network hides the lease of the
first one from the search, and the third is given it again. -/
theorem not_leasesUnique : ¬ LeasesUnique (Runs.after step
    [discover 1 [0, 0, 0, 0], discover 2 [10, 0, 0, 1], discover 3 [0, 0, 0, 0]] softap) := by
  intro h
  have hips : (Runs.after step [discover 1 [0, 0, 0, 0], discover 2 [10, 0, 0, 1],
      discover 3 [0, 0, 0, 0]] softap).plist.map DhcpsPool.ip =
        [0x0100000A, 0x0204A8C0, 0x0204A8C0] := by decide +kernel
  have hnodup := h.addresses
  rw [hips] at hnodup
  exact absurd hnodup (by decide)

end DhcpServer

end Dhcp
