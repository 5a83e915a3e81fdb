import RalioFirmware.Dhcp.Pool

/-!
# The range to lease from

A range is configured before the server begins, and looked at again when it does, since the address
of the interface may be another by then; without one, the server leases a hundred addresses next to
its own.  Both functions compare the addresses in the order of the host.

`last - first > DHCPS_MAX_LEASE` counts the addresses without the first, so that a range of one
address more than the pool may have is accepted by both.
-/

open Word

namespace Dhcp

/-- `struct dhcps_lease`. -/
structure DhcpsLease where
  enable : Bool
  start_ip : Nat
  end_ip : Nat
deriving DecidableEq

/-- `init_dhcps_lease`, with the flag it leaves. -/
def initDhcpsLease (ip : Nat) (lease : DhcpsLease) : DhcpsLease :=
  let softap_ip := htonl ip
  let start_ip := htonl lease.start_ip
  let end_ip := htonl lease.end_ip
  let enable := lease.enable && !decide (start_ip ≤ softap_ip ∧ softap_ip ≤ end_ip)
    && !decide (start_ip / 256 ≠ softap_ip / 256 ∨ end_ip / 256 ≠ softap_ip / 256 ∨
      sub32 end_ip start_ip > DHCPS_MAX_LEASE)
  let range := DhcpServer.initLease ip lease.enable lease.start_ip lease.end_ip
  ⟨enable, range.1, range.2⟩

def STATION_IF : Nat := 0
def SOFTAP_IF : Nat := 1
def NULL_MODE : Nat := 0
def STATION_MODE : Nat := 1

/-- What `set_dhcps_lease` asks the interface and the SDK. -/
structure Interface where
  num : Nat
  ip_addr : Nat
  opmode : Nat
  isRunning : Bool
deriving DecidableEq

def setDhcpsLease (netif : Interface) (please : Option DhcpsLease) (lease : DhcpsLease) :
    Bool × DhcpsLease :=
  if (netif.num = SOFTAP_IF ∨ netif.num = STATION_IF) ∧
      (netif.opmode = STATION_MODE ∨ netif.opmode = NULL_MODE) then (false, lease)
  else
    match please with
    | none => (false, lease)
    | some please =>
      if netif.isRunning then (false, lease)
      else if please.enable then
        let softap_ip := htonl netif.ip_addr
        let start_ip := htonl please.start_ip
        let end_ip := htonl please.end_ip
        if start_ip ≤ softap_ip ∧ softap_ip ≤ end_ip then (false, lease)
        else if start_ip / 256 ≠ softap_ip / 256 ∨ end_ip / 256 ≠ softap_ip / 256 then
            (false, lease)
        else if sub32 end_ip start_ip > DHCPS_MAX_LEASE then (false, lease)
        else (true, ⟨true, please.start_ip, please.end_ip⟩)
      else (true, { lease with enable := false })

/-! ## What a pool is -/

/-- A pool for a server at `ip`, its addresses in the order of the host: both ends in the network
of the server, whose own address is not among them, and not too many. -/
structure IsPool (ip first last : Nat) : Prop where
  le : htonl first ≤ htonl last
  first_net : htonl first / 256 = htonl ip / 256
  last_net : htonl last / 256 = htonl ip / 256
  outside : htonl ip < htonl first ∨ htonl last < htonl ip
  count : htonl last - htonl first + 1 ≤ DHCPS_MAX_LEASE

structure Overfull (ip first last : Nat) : Prop where
  last_eq : htonl last = htonl first + DHCPS_MAX_LEASE
  first_net : htonl first / 256 = htonl ip / 256
  last_net : htonl last / 256 = htonl ip / 256
  outside : htonl ip < htonl first ∨ htonl last < htonl ip

def Accepted (ip first last : Nat) : Prop :=
  ¬ (htonl first ≤ htonl ip ∧ htonl ip ≤ htonl last) ∧
    htonl first / 256 = htonl ip / 256 ∧ htonl last / 256 = htonl ip / 256 ∧
    sub32 (htonl last) (htonl first) ≤ DHCPS_MAX_LEASE

section

variable {ip first last : Nat}

theorem accepted_iff : Accepted ip first last ↔ IsPool ip first last ∨ Overfull ip first last := by
  have hfirst := htonl_lt first
  have hlast := htonl_lt last
  constructor
  · rintro ⟨hlocal, hfnet, hlnet, hlen⟩
    have hle := le_of_sub32_le hfirst hlast (hfnet.trans hlnet.symm) hlen
    rw [sub32_of_le hle hlast] at hlen
    have houtside : htonl ip < htonl first ∨ htonl last < htonl ip := by omega
    rcases Nat.lt_or_eq_of_le hlen with hlt | heq
    · exact .inl ⟨hle, hfnet, hlnet, houtside, hlt⟩
    · exact .inr ⟨by omega, hfnet, hlnet, houtside⟩
  · intro h
    rcases h with h | h
    · have hle := h.le
      have hcount := h.count
      have houtside := h.outside
      refine ⟨by omega, h.first_net, h.last_net, ?_⟩
      rw [sub32_of_le hle hlast]
      omega
    · have hlast_eq := h.last_eq
      have houtside := h.outside
      refine ⟨by omega, h.first_net, h.last_net, ?_⟩
      rw [sub32_of_le (by omega) hlast]
      omega

theorem IsPool.not_overfull (h : IsPool ip first last) : ¬ Overfull ip first last := by
  intro hover
  have hcount := h.count
  have hlast := hover.last_eq
  omega

theorem Accepted.isPool_iff (h : Accepted ip first last) :
    IsPool ip first last ↔ ¬ Overfull ip first last := by
  constructor
  · exact IsPool.not_overfull
  · intro hnot
    exact (accepted_iff.mp h).resolve_right hnot

end

theorem htonl_htonl {ip : Nat} (h : ip < 4294967296) : htonl (htonl ip) = ip := by
  have hip : ip = ip / 16777216 * 16777216 + ip / 65536 % 256 * 65536 + ip / 256 % 256 * 256 +
      ip % 256 := by omega
  have ha : ip / 16777216 < 256 := by omega
  have hb : ip / 65536 % 256 < 256 := by omega
  have hc : ip / 256 % 256 < 256 := by omega
  have hd : ip % 256 < 256 := by omega
  generalize ip / 16777216 = a, ip / 65536 % 256 = b, ip / 256 % 256 = c, ip % 256 = d
    at ha hb hc hd hip
  subst hip
  rw [htonl_bytes ha hb hc hd, htonl_bytes hd hc hb ha]

theorem isPool_default (ip : Nat) {host : Nat} (hhost : host + DHCPS_MAX_LEASE - 1 < 256)
    (houtside : htonl ip % 256 < host ∨ host + DHCPS_MAX_LEASE - 1 < htonl ip % 256) :
    IsPool ip (htonl (htonl ip / 256 * 256 + host))
      (htonl (htonl ip / 256 * 256 + (host + DHCPS_MAX_LEASE - 1))) := by
  have hip := htonl_lt ip
  unfold DHCPS_MAX_LEASE at hhost houtside ⊢
  have hfirst := @htonl_htonl (htonl ip / 256 * 256 + host) (by omega)
  have hlast := @htonl_htonl (htonl ip / 256 * 256 + (host + 100 - 1)) (by omega)
  constructor
  · rw [hfirst, hlast]
    omega
  · rw [hfirst]
    omega
  · rw [hlast]
    omega
  · rw [hfirst, hlast]
    omega
  · rw [hfirst, hlast]
    unfold DHCPS_MAX_LEASE
    omega

/-! ## The functions -/

variable {lease : DhcpsLease}

theorem initDhcpsLease_accepted {ip : Nat} (henable : lease.enable = true)
    (h : Accepted ip lease.start_ip lease.end_ip) : initDhcpsLease ip lease = lease := by
  obtain ⟨hlocal, hfirst, hlast, hlen⟩ := h
  have hrange : ¬ (htonl lease.start_ip / 256 ≠ htonl ip / 256 ∨
      htonl lease.end_ip / 256 ≠ htonl ip / 256 ∨
      sub32 (htonl lease.end_ip) (htonl lease.start_ip) > DHCPS_MAX_LEASE) := by grind
  obtain ⟨enable, start_ip, end_ip⟩ := lease
  subst henable
  simp only [initDhcpsLease, DhcpServer.initLease, hlocal, hrange, decide_false, Bool.not_false,
    Bool.and_self, if_true]

theorem initDhcpsLease_default {ip : Nat}
    (h : ¬ (lease.enable = true ∧ Accepted ip lease.start_ip lease.end_ip)) :
    IsPool ip (initDhcpsLease ip lease).start_ip (initDhcpsLease ip lease).end_ip := by
  have hrefused : (lease.enable &&
      !decide (htonl lease.start_ip ≤ htonl ip ∧ htonl ip ≤ htonl lease.end_ip) &&
      !decide (htonl lease.start_ip / 256 ≠ htonl ip / 256 ∨
        htonl lease.end_ip / 256 ≠ htonl ip / 256 ∨
        sub32 (htonl lease.end_ip) (htonl lease.start_ip) > DHCPS_MAX_LEASE)) = false := by
    rw [Bool.eq_false_iff]
    intro hyes
    simp only [Bool.and_eq_true, Bool.not_eq_true', decide_eq_false_iff_not, not_or,
      Classical.not_not, Nat.not_lt] at hyes
    exact h ⟨hyes.1.1, hyes.1.2, hyes.2.1, hyes.2.2.1, hyes.2.2.2⟩
  simp only [initDhcpsLease, DhcpServer.initLease, hrefused, Bool.false_eq_true, if_false]
  have hlt : htonl ip % 256 < 256 := Nat.mod_lt _ (by decide)
  by_cases hhigh : htonl ip % 256 ≥ 128
  · rw [if_pos hhigh]
    unfold DHCPS_MAX_LEASE
    exact isPool_default ip (by unfold DHCPS_MAX_LEASE; omega)
      (by unfold DHCPS_MAX_LEASE; omega)
  · rw [if_neg hhigh]
    exact isPool_default ip (by unfold DHCPS_MAX_LEASE; omega)
      (by unfold DHCPS_MAX_LEASE; omega)

theorem initDhcpsLease_isPool_iff (ip : Nat) (lease : DhcpsLease) :
    IsPool ip (initDhcpsLease ip lease).start_ip (initDhcpsLease ip lease).end_ip ↔
      ¬ (lease.enable = true ∧ Overfull ip lease.start_ip lease.end_ip) := by
  by_cases h : lease.enable = true ∧ Accepted ip lease.start_ip lease.end_ip
  · rw [initDhcpsLease_accepted h.1 h.2, h.2.isPool_iff]
    exact not_congr ⟨fun hover => ⟨h.1, hover⟩, And.right⟩
  · refine iff_of_true (initDhcpsLease_default h) ?_
    rintro ⟨henable, hover⟩
    exact h ⟨henable, accepted_iff.mpr (.inr hover)⟩

/-- A range can be set: the mode of the SDK has the interface, and the server does not run. -/
def Settable (netif : Interface) : Prop :=
  ¬ ((netif.num = SOFTAP_IF ∨ netif.num = STATION_IF) ∧
    (netif.opmode = STATION_MODE ∨ netif.opmode = NULL_MODE)) ∧ netif.isRunning = false

instance (netif : Interface) : Decidable (Settable netif) :=
  inferInstanceAs (Decidable (_ ∧ _))

variable {netif : Interface}

theorem setDhcpsLease_closed (h : ¬ Settable netif)
    (please : Option DhcpsLease) (lease : DhcpsLease) :
    setDhcpsLease netif please lease = (false, lease) := by
  unfold setDhcpsLease
  split
  · rfl
  · rename_i hmode
    have hrunning : netif.isRunning = true := by
      by_contra hidle
      exact h ⟨hmode, Bool.eq_false_iff.mpr hidle⟩
    cases please with
    | none => rfl
    | some please => simp only [hrunning, if_true]

variable {please : DhcpsLease}

theorem setDhcpsLease_range (h : Settable netif)
    (henable : please.enable = true) (lease : DhcpsLease) :
    (Accepted netif.ip_addr please.start_ip please.end_ip ∧
      setDhcpsLease netif (some please) lease = (true, please)) ∨
    (¬ Accepted netif.ip_addr please.start_ip please.end_ip ∧
      setDhcpsLease netif (some please) lease = (false, lease)) := by
  obtain ⟨enable, start_ip, end_ip⟩ := please
  subst henable
  rw [setDhcpsLease, if_neg h.1]
  simp only [h.2, Bool.false_eq_true, if_false, if_true]
  split
  · rename_i hlocal
    exact .inr ⟨fun hyes => hyes.1 hlocal, rfl⟩
  · rename_i hlocal
    split
    · rename_i hnet
      refine .inr ⟨fun hyes => ?_, rfl⟩
      rcases hnet with hnet | hnet
      · exact hnet hyes.2.1
      · exact hnet hyes.2.2.1
    · rename_i hnet
      simp only [not_or, Classical.not_not] at hnet
      split
      · rename_i hlen
        exact .inr ⟨fun hyes => Nat.not_lt.mpr hyes.2.2.2 hlen, rfl⟩
      · rename_i hlen
        exact .inl ⟨⟨hlocal, hnet.1, hnet.2, Nat.not_lt.mp hlen⟩, rfl⟩

theorem setDhcpsLease_refused {please : Option DhcpsLease}
    (h : (setDhcpsLease netif please lease).1 = false) :
    (setDhcpsLease netif please lease).2 = lease := by
  by_cases hset : Settable netif
  · cases please with
    | none => simp only [setDhcpsLease, if_neg hset.1]
    | some please =>
      by_cases henable : please.enable = true
      · rcases setDhcpsLease_range hset henable lease with ⟨-, heq⟩ | ⟨-, heq⟩
        · rw [heq] at h
          cases h
        · rw [heq]
      · simp only [setDhcpsLease, if_neg hset.1, hset.2, Bool.false_eq_true, if_false, henable] at h
        cases h
  · rw [setDhcpsLease_closed hset]

/-- What `set_dhcps_lease` is to do with a range: take it only if it is a pool, and otherwise leave
the lease as it was. -/
structure SetsPool (netif : Interface) (please lease : DhcpsLease) : Prop where
  taken : (setDhcpsLease netif (some please) lease).1 = true →
    IsPool netif.ip_addr (setDhcpsLease netif (some please) lease).2.start_ip
      (setDhcpsLease netif (some please) lease).2.end_ip
  refused : ¬ IsPool netif.ip_addr please.start_ip please.end_ip →
    setDhcpsLease netif (some please) lease = (false, lease)

theorem setsPool_iff (henable : please.enable = true)
    (lease : DhcpsLease) : SetsPool netif please lease ↔
      ¬ (Settable netif ∧ Overfull netif.ip_addr please.start_ip please.end_ip) := by
  by_cases hset : Settable netif
  · rcases setDhcpsLease_range hset henable lease with ⟨haccepted, heq⟩ | ⟨hnot, heq⟩
    · have hpool := haccepted.isPool_iff
      constructor
      · intro h
        have htaken := h.taken (by rw [heq])
        rw [heq] at htaken
        exact fun hover => hpool.mp htaken hover.2
      · intro hnot
        have hyes := hpool.mpr fun hover => hnot ⟨hset, hover⟩
        refine ⟨fun _ => ?_, fun hno => absurd hyes hno⟩
        rw [heq]
        exact hyes
    · refine iff_of_true ⟨fun htrue => ?_, fun _ => heq⟩ ?_
      · rw [heq] at htrue
        cases htrue
      · exact fun hover => hnot (accepted_iff.mpr (.inr hover.2))
  · have heq := setDhcpsLease_closed hset (some please) lease
    refine iff_of_true ⟨fun htrue => ?_, fun _ => heq⟩ fun hover => hset hover.1
    rw [heq] at htrue
    cases htrue

/-- **The range is a pool** after either function, and an unacceptable one is refused, for every
address of the server and every range, just where that range is not one address too long. -/
theorem lease_isPool_iff (ip : Nat) (netif : Interface) (please lease : DhcpsLease)
    (henable : please.enable = true) :
    (IsPool ip (initDhcpsLease ip lease).start_ip (initDhcpsLease ip lease).end_ip ↔
      ¬ (lease.enable = true ∧ Overfull ip lease.start_ip lease.end_ip)) ∧
    (SetsPool netif please lease ↔
      ¬ (Settable netif ∧ Overfull netif.ip_addr please.start_ip please.end_ip)) ∧
    ∀ please, (setDhcpsLease netif please lease).1 = false →
      (setDhcpsLease netif please lease).2 = lease :=
  ⟨initDhcpsLease_isPool_iff ip lease, setsPool_iff henable lease,
    fun _ => setDhcpsLease_refused⟩

/-- 192.168.4.1, with 192.168.4.2 to 192.168.4.101. -/
theorem lease_isPool_iff_sample :
    SetsPool ⟨SOFTAP_IF, 0x0104A8C0, 3, false⟩ ⟨true, 0x0204A8C0, 0x6504A8C0⟩ ⟨false, 0, 0⟩ :=
  (lease_isPool_iff 0x0104A8C0 ⟨SOFTAP_IF, 0x0104A8C0, 3, false⟩
    ⟨true, 0x0204A8C0, 0x6504A8C0⟩ ⟨false, 0, 0⟩ rfl).2.1.mpr
      fun hover => absurd hover.2.last_eq (by decide)

/-- 192.168.4.100 to 192.168.4.200 are a hundred and one, and accepted, by the server as well. -/
theorem not_lease_isPool :
    ¬ ∀ (netif : Interface) (please lease : DhcpsLease), please.enable = true →
      (setDhcpsLease netif (some please) lease).1 = true →
        IsPool netif.ip_addr (setDhcpsLease netif (some please) lease).2.start_ip
          (setDhcpsLease netif (some please) lease).2.end_ip ∧
        IsPool netif.ip_addr
          (initDhcpsLease netif.ip_addr (setDhcpsLease netif (some please) lease).2).start_ip
          (initDhcpsLease netif.ip_addr (setDhcpsLease netif (some please) lease).2).end_ip := by
  intro h
  have hcount := (h ⟨SOFTAP_IF, 0x0104A8C0, 3, false⟩ ⟨true, 0x6404A8C0, 0xC804A8C0⟩
    ⟨false, 0, 0⟩ rfl (by decide)).1.count
  exact absurd hcount (by decide)

end Dhcp
