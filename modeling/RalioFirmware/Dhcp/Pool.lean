import RalioFirmware.Basis.Registry
import RalioFirmware.Dhcp.Server

/-!
# The pool of leases

The pool is a registry of addresses, each hardware address once, as long as all
its addresses are of the network of the range and not below it: then the order
of the numbers that the server compares is the order of the addresses, and the
search for an address finds the first that is free.
-/

open Word List

namespace Dhcp

/-! ## Addresses of one network -/

/-- An address of the /24 network of `first`, from `first` to `last`. -/
def Within (first last ip : Nat) : Prop :=
  first ≤ ip ∧ ip ≤ last ∧ ip < 4294967296 ∧ ip % 16777216 = first % 16777216

instance (first last ip : Nat) : Decidable (Within first last ip) :=
  inferInstanceAs (Decidable (_ ∧ _ ∧ _ ∧ _))

variable {a b : Nat}

theorem htonl_lt_iff (ha : a < 4294967296) (hb : b < 4294967296)
    (hnet : a % 16777216 = b % 16777216) : htonl a < htonl b ↔ a < b := by
  unfold htonl
  omega

theorem htonl_bytes {c d : Nat} (ha : a < 256) (hb : b < 256) (hc : c < 256) (hd : d < 256) :
    htonl (a * 16777216 + b * 65536 + c * 256 + d) = d * 16777216 + c * 65536 + b * 256 + a := by
  unfold htonl
  omega

variable {ip : Nat}

theorem htonl_succ (h : ip + 16777216 < 4294967296) :
    htonl (u32 (htonl ip + 1)) = ip + 16777216 := by
  have ha : ip / 16777216 < 255 := by omega
  have hb : ip / 65536 % 256 < 256 := by omega
  have hc : ip / 256 % 256 < 256 := by omega
  have hd : ip % 256 < 256 := by omega
  have hip : ip = ip / 16777216 * 16777216 + ip / 65536 % 256 * 65536 + ip / 256 % 256 * 256 +
      ip % 256 := by omega
  generalize ip / 16777216 = a, ip / 65536 % 256 = b, ip / 256 % 256 = c, ip % 256 = d
    at ha hb hc hd hip
  subst hip
  clear h
  have hlt : d * 16777216 + c * 65536 + b * 256 + (a + 1) < 4294967296 := by omega
  have hsum : (a + 1) * 16777216 + b * 65536 + c * 256 + d =
      a * 16777216 + b * 65536 + c * 256 + d + 16777216 := by omega
  calc htonl (u32 (htonl (a * 16777216 + b * 65536 + c * 256 + d) + 1))
      = htonl (u32 (d * 16777216 + c * 65536 + b * 256 + (a + 1))) := by
        rw [htonl_bytes (Nat.lt_succ_of_lt ha) hb hc hd, Nat.add_assoc _ a 1]
    _ = htonl (d * 16777216 + c * 65536 + b * 256 + (a + 1)) := by rw [u32_of_lt hlt]
    _ = (a + 1) * 16777216 + b * 65536 + c * 256 + d :=
        htonl_bytes hd hc hb (Nat.succ_lt_succ ha)
    _ = a * 16777216 + b * 65536 + c * 256 + d + 16777216 := hsum

theorem htonl_lt (ip : Nat) : htonl ip < 4294967296 := by
  unfold htonl
  omega

theorem htonl_div (ip : Nat) :
    htonl ip / 256 = ip % 256 * 65536 + ip / 256 % 256 * 256 + ip / 65536 % 256 := by
  unfold htonl
  omega

theorem net_bytes (ip : Nat) :
    ip % 16777216 = ip / 65536 % 256 * 65536 + ip / 256 % 256 * 256 + ip % 256 := by
  omega

theorem bytes_inj {c x y z : Nat} (hb : b < 256) (hc : c < 256) (hy : y < 256) (hz : z < 256)
    (h : a * 65536 + b * 256 + c = x * 65536 + y * 256 + z) : a = x ∧ b = y ∧ c = z := by
  omega

theorem same_net (h : htonl a / 256 = htonl b / 256) : a % 16777216 = b % 16777216 := by
  rw [htonl_div, htonl_div] at h
  rw [net_bytes, net_bytes b]
  have hlt : ∀ n : Nat, n % 256 < 256 := fun n => Nat.mod_lt n (by decide)
  obtain ⟨h0, h1, h2⟩ := bytes_inj (hlt (a / 256)) (hlt (a / 65536)) (hlt (b / 256))
    (hlt (b / 65536)) h
  rw [h0, h1, h2]

theorem htonl_net {d : Nat} (hd : d < 256) :
    htonl (htonl ip / 256 * 256 + d) = d * 16777216 + ip % 16777216 := by
  rw [htonl_div, net_bytes]
  have hlt : ∀ n : Nat, n % 256 < 256 := fun n => Nat.mod_lt n (by decide)
  have h1 := hlt ip
  have h2 := hlt (ip / 256)
  have h3 := hlt (ip / 65536)
  generalize ip % 256 = a, ip / 256 % 256 = b, ip / 65536 % 256 = c at *
  have hsplit : (a * 65536 + b * 256 + c) * 256 + d =
      a * 16777216 + b * 65536 + c * 256 + d := by omega
  rw [hsplit, htonl_bytes h1 h2 h3 hd, Nat.add_assoc, Nat.add_assoc, Nat.add_assoc]

theorem le_of_sub32_le (ha : a < 4294967296) (hb : b < 4294967296)
    (hnet : a / 256 = b / 256) (h : sub32 b a ≤ DHCPS_MAX_LEASE) : a ≤ b := by
  unfold sub32 DHCPS_MAX_LEASE at h
  omega

theorem Within.mono {first last last' : Nat} (h : Within first last ip) (hle : last ≤ last') :
    Within first last' ip :=
  ⟨h.1, Nat.le_trans h.2.1 hle, h.2.2⟩

/-! ## The range -/

/-- A range in the network of the interface, which is not in the range itself. -/
structure GoodRange (ip first last : Nat) : Prop where
  within : Within first last last
  net : ip % 16777216 = first % 16777216
  outside : ip < first ∨ last < ip

variable {start_ip : Nat}

/-- **The range that a server leases from**, configured or not. -/
theorem initLease_good (enable : Bool) {end_ip : Nat}
    (hip : ip < 4294967296) (hstart : start_ip < 4294967296) (hend : end_ip < 4294967296) :
    GoodRange ip (DhcpServer.initLease ip enable start_ip end_ip).1
      (DhcpServer.initLease ip enable start_ip end_ip).2 := by
  unfold DhcpServer.initLease
  simp only
  split
  · rename_i henable
    simp only [Bool.and_eq_true, Bool.not_eq_true', decide_eq_false_iff_not, not_or,
      Classical.not_not, not_and, Nat.not_le, Nat.not_lt] at henable
    have hlocal := henable.1.2
    have hs := henable.2.1
    have he := henable.2.2.1
    have hlen := henable.2.2.2
    clear henable
    have hsnet := same_net hs
    have henet := same_net he
    have hse : start_ip ≤ end_ip := by
      have hhost : htonl start_ip ≤ htonl end_ip := by
        exact le_of_sub32_le (htonl_lt start_ip) (htonl_lt end_ip) (hs.trans he.symm) hlen
      by_contra hgt
      have := (htonl_lt_iff hend hstart (henet.trans hsnet.symm)).mpr (by omega)
      omega
    refine ⟨⟨hse, Nat.le_refl _, hend, henet.trans hsnet.symm⟩, hsnet.symm, ?_⟩
    by_contra hin
    have h1 : ¬ htonl ip < htonl start_ip := by
      rw [htonl_lt_iff hip hstart hsnet.symm]
      omega
    have h2 := hlocal (Nat.le_of_not_lt h1)
    rw [htonl_lt_iff hend hip henet] at h2
    omega
  · have hoctet : htonl ip % 256 = ip / 16777216 := by
      unfold htonl
      omega
    rw [hoctet]
    by_cases hd : ip / 16777216 ≥ 128
    · rw [if_pos hd, htonl_net (by unfold DHCPS_MAX_LEASE; omega),
        htonl_net (by unfold DHCPS_MAX_LEASE; omega)]
      unfold DHCPS_MAX_LEASE
      refine ⟨⟨?_, Nat.le_refl _, ?_, ?_⟩, ?_, ?_⟩ <;> omega
    · rw [if_neg hd, htonl_net (by omega),
        htonl_net (by unfold DHCPS_MAX_LEASE; omega)]
      unfold DHCPS_MAX_LEASE
      refine ⟨⟨?_, Nat.le_refl _, ?_, ?_⟩, ?_, ?_⟩ <;> omega

/-! ## The search -/

def gap (start_ip : Nat) : List DhcpsPool → Nat
  | [] => start_ip
  | e :: rest => if e.ip ≠ start_ip then start_ip else gap (htonl (u32 (htonl start_ip + 1))) rest

variable {l : List DhcpsPool}

theorem gap_spec {free : Nat}
    (hsorted : l.Pairwise fun a b => a.ip < b.ip) (hl : ∀ e ∈ l, Within start_ip 4294967295 e.ip)
    (hfree : Within start_ip 4294967295 free) (hnot : ∀ e ∈ l, e.ip ≠ free) :
    Within start_ip free (gap start_ip l) ∧ ∀ e ∈ l, e.ip ≠ gap start_ip l := by
  have hnext : ∀ {c a : Nat}, Within c 4294967295 a → a ≠ c →
      htonl (u32 (htonl c + 1)) = c + 16777216 ∧ Within (c + 16777216) 4294967295 a := by
    intro c a h hne
    unfold Within at h ⊢
    have hle : c + 16777216 ≤ a := by omega
    exact ⟨htonl_succ (by omega), by omega⟩
  induction l generalizing start_ip with
  | nil =>
    have hlt : start_ip < 4294967296 := Nat.lt_of_le_of_lt hfree.1 hfree.2.2.1
    exact ⟨⟨Nat.le_refl _, hfree.1, hlt, rfl⟩, by simp⟩
  | cons e rest ih =>
    obtain ⟨he, hrest⟩ := pairwise_cons.mp hsorted
    have hstart : start_ip ≤ e.ip := (hl e mem_cons_self).1
    unfold gap
    by_cases heq : e.ip = start_ip
    · rw [if_neg (not_not_intro heq)]
      have hfirst := hnot e mem_cons_self
      obtain ⟨hsucc, hfree'⟩ := hnext hfree (by omega)
      rw [hsucc]
      obtain ⟨hgap, hnone⟩ := ih hrest
        (fun a ha => (hnext (hl a (mem_cons_of_mem e ha)) (by have := he a ha; omega)).2)
        hfree' (fun a ha => hnot a (mem_cons_of_mem e ha))
      unfold Within at hgap ⊢
      refine ⟨by omega, ?_⟩
      intro a ha
      rcases mem_cons.mp ha with rfl | ha
      · omega
      · exact hnone a ha
    · rw [if_pos heq]
      have hlt : start_ip < 4294967296 := Nat.lt_of_le_of_lt hfree.1 hfree.2.2.1
      refine ⟨⟨Nat.le_refl _, hfree.1, hlt, rfl⟩, ?_⟩
      intro a ha
      rcases mem_cons.mp ha with rfl | ha
      · exact heq
      · have := he a ha
        omega

/-- The leases that the loop looks at for a client that names no address. -/
abbrev before (bssid : List UInt8) (l : List DhcpsPool) : List DhcpsPool :=
  l.takeWhile fun e => !decide (e.mac = bssid)

variable {bssid : List UInt8}

theorem scan_start_ip :
    ∀ {i : Nat} {sc : Scan}, (scan bssid none i l sc).start_ip =
      if sc.flag then sc.start_ip else gap sc.start_ip (before bssid l) := by
  induction l with
  | nil =>
    intro i sc
    simp [scan, gap]
  | cons e rest ih =>
    intro i sc
    unfold scan
    by_cases hmac : e.mac = bssid
    · simp [hmac, gap]
    · by_cases hflag : sc.flag = false
      · by_cases hip : e.ip = sc.start_ip
        · simp [hmac, hflag, hip, ih, gap]
        · simp [hmac, hflag, hip, ih, gap]
      · simp [hmac, hflag, ih]

theorem scan_cons (bssid : List UInt8) (ip : Option Nat) (i : Nat) (e : DhcpsPool)
    (rest : List DhcpsPool) (sc : Scan) :
    (ip = none ∧ e.mac = bssid ∧
        scan bssid ip i (e :: rest) sc = { sc with pmac := some i, flag := true }) ∨
      ((ip = none → e.mac ≠ bssid) ∧ ∃ sc',
        scan bssid ip i (e :: rest) sc = scan bssid ip (i + 1) rest sc' ∧
        sc'.pmac = (if e.mac = bssid then some i else sc.pmac) ∧
        sc'.pip = (if ip = some e.ip then some i else sc.pip)) := by
  cases ip with
  | none =>
    rw [scan]
    by_cases hmac : e.mac = bssid
    · exact Or.inl ⟨rfl, hmac, by simp [hmac]⟩
    · refine Or.inr ⟨fun _ => hmac, ?_⟩
      simp only [if_neg hmac, reduceCtorEq, if_false]
      split
      · split
        · exact ⟨_, rfl, rfl, rfl⟩
        · exact ⟨_, rfl, rfl, rfl⟩
      · exact ⟨_, rfl, rfl, rfl⟩
  | some addr =>
    rw [scan]
    refine Or.inr ⟨by simp, _, rfl, ?_⟩
    by_cases hmac : e.mac = bssid
    · by_cases hip : e.ip = addr
      · simp [hmac, hip]
      · simp [hmac, hip, Ne.symm hip]
    · by_cases hip : e.ip = addr
      · simp [hmac, hip]
      · simp [hmac, hip, Ne.symm hip]

theorem scan_pmac (bssid : List UInt8) (ip : Option Nat) (l : List DhcpsPool) :
    ∀ (i : Nat) (sc : Scan),
      ((scan bssid ip i l sc).pmac = sc.pmac ∧ ∀ e ∈ l, e.mac ≠ bssid) ∨
        ∃ m e, l[m]? = some e ∧ e.mac = bssid ∧ (scan bssid ip i l sc).pmac = some (i + m) ∧
          (ip = none → (scan bssid ip i l sc).flag = true) := by
  induction l with
  | nil =>
    intro i sc
    exact Or.inl ⟨rfl, by simp⟩
  | cons e rest ih =>
    intro i sc
    rcases scan_cons bssid ip i e rest sc with ⟨-, hmac, heq⟩ | ⟨hnone, sc', heq, hpmac, -⟩
    · rw [heq]
      exact Or.inr ⟨0, e, rfl, hmac, rfl, fun _ => rfl⟩
    · rw [heq]
      rcases ih (i + 1) sc' with ⟨hsame, hother⟩ | ⟨m, e', hm, hmac, hfound, hflag⟩
      · by_cases hmac : e.mac = bssid
        · rw [if_pos hmac] at hpmac
          exact Or.inr ⟨0, e, rfl, hmac, hsame.trans hpmac, fun h => absurd hmac (hnone h)⟩
        · grind
      · refine Or.inr ⟨m + 1, e', hm, hmac, ?_, hflag⟩
        rw [hfound, Nat.add_assoc, Nat.add_comm 1 m]

theorem scan_pip (bssid : List UInt8) (ip : Option Nat) (l : List DhcpsPool) :
    ∀ (i : Nat) (sc : Scan),
      ((scan bssid ip i l sc).pip = sc.pip ∧ ∀ e ∈ l, ip ≠ some e.ip) ∨
        ∃ m e, l[m]? = some e ∧ ip = some e.ip ∧ (scan bssid ip i l sc).pip = some (i + m) := by
  induction l with
  | nil =>
    intro i sc
    exact Or.inl ⟨rfl, by simp⟩
  | cons e rest ih =>
    intro i sc
    rcases scan_cons bssid ip i e rest sc with ⟨hnone, -, heq⟩ | ⟨-, sc', heq, -, hpip⟩
    · grind
    · rw [heq]
      rcases ih (i + 1) sc' with ⟨hsame, hother⟩ | ⟨m, e', hm, hip, hfound⟩
      · by_cases hip : ip = some e.ip
        · rw [if_pos hip] at hpip
          exact Or.inr ⟨0, e, rfl, hip, hsame.trans hpip⟩
        · grind
      · refine Or.inr ⟨m + 1, e', hm, hip, ?_⟩
        rw [hfound, Nat.add_assoc, Nat.add_comm 1 m]

/-! ## The update -/

namespace DhcpServer

/-- The address of a lease that an update places in the pool. -/
def wanted (bssid : List UInt8) (ip : Nat) (s : DhcpServer) : Nat :=
  if ip = IPADDR_ANY then gap s.start_ip (before bssid s.plist) else ip

/-- The type of a lease that an update places in the pool. -/
def leaseType (ip : Nat) : DhcpsType := if ip = IPADDR_ANY then .dynamic else .static

inductive Updated (bssid : List UInt8) (ip : Nat) (s : DhcpServer) : Nat × DhcpServer → Prop
  /-- A broadcast address is refused before anything else. -/
  | broadcast (hip : ip = IPADDR_BROADCAST) : Updated bssid ip s (IPADDR_ANY, s)
  /-- The address is somebody else's. -/
  | held (hcast : ip ≠ IPADDR_BROADCAST) (e : DhcpsPool) (he : e ∈ s.plist) (hip : e.ip = ip)
      (hmac : e.mac ≠ bssid) (hstate : e.state = .online) :
      Updated bssid ip s (IPADDR_ANY, { s with renew := false })
  /-- There is no address for a new client. -/
  | exhausted (hcast : ip ≠ IPADDR_BROADCAST) (hnew : ∀ e ∈ s.plist, e.mac ≠ bssid)
      (hend : s.end_ip < s.wanted bssid ip) :
      Updated bssid ip s (IPADDR_ANY, { s with renew := false })
  /-- A client names the address that it has. -/
  | renewed (i : Nat) (e : DhcpsPool) (hi : s.plist[i]? = some e) (hmac : e.mac = bssid)
      (hip : e.ip = ip) :
      Updated bssid ip s (ip,
        { s with plist := s.plist.set i (s.online .dynamic e), renew := true })
  /-- A client takes an offline lease, and gives up the one it has. -/
  | swapped (i m : Nat) (e mine : DhcpsPool) (hne : i ≠ m) (hi : s.plist[i]? = some e)
      (hm : s.plist[m]? = some mine) (hmac : mine.mac = bssid) (hip : e.ip = ip) :
      Updated bssid ip s (ip, { s with
        plist := (s.plist.set i (s.online .static { e with mac := bssid })).eraseIdx m
        renew := false })
  /-- A new client takes an offline lease. -/
  | taken (i : Nat) (e : DhcpsPool) (hi : s.plist[i]? = some e)
      (hnew : ∀ a ∈ s.plist, a.mac ≠ bssid) (hip : e.ip = ip) :
      Updated bssid ip s (ip, { s with
        plist := s.plist.set i (s.online .static { e with mac := bssid })
        renew := false })
  /-- A client's lease moves to another address. -/
  | moved (hcast : ip ≠ IPADDR_BROADCAST) (m : Nat) (mine : DhcpsPool)
      (hm : s.plist[m]? = some mine) (hmac : mine.mac = bssid)
      (hfree : ip ≠ IPADDR_ANY → ∀ e ∈ s.plist, e.ip ≠ ip) :
      Updated bssid ip s (s.wanted bssid ip, { s with
        plist := nodeInsert (s.online (leaseType ip) { mine with ip := s.wanted bssid ip })
          (s.plist.eraseIdx m)
        renew := false })
  /-- A new client gets a lease of its own. -/
  | entered (hcast : ip ≠ IPADDR_BROADCAST) (hnew : ∀ e ∈ s.plist, e.mac ≠ bssid)
      (hfree : ip ≠ IPADDR_ANY → ∀ e ∈ s.plist, e.ip ≠ ip)
      (hend : s.wanted bssid ip ≤ s.end_ip) :
      Updated bssid ip s (s.wanted bssid ip, { s with
        plist := nodeInsert
          ⟨s.wanted bssid ip, bssid, s.settings.lease_time, leaseType ip, .online⟩ s.plist
        renew := false })

structure Found (bssid : List UInt8) (ip : Nat) (s : DhcpServer) (sc : Scan) : Prop where
  client : (sc.pmac = none ∧ ∀ e ∈ s.plist, e.mac ≠ bssid) ∨
    ∃ m e, s.plist[m]? = some e ∧ e.mac = bssid ∧ sc.pmac = some m
  address : (sc.pip = none ∧ (ip ≠ IPADDR_ANY → ∀ e ∈ s.plist, e.ip ≠ ip)) ∨
    ∃ i e, s.plist[i]? = some e ∧ e.ip = ip ∧ ip ≠ IPADDR_ANY ∧ sc.pip = some i
  wanted : (if ip = IPADDR_ANY then none else some ip).getD sc.start_ip = s.wanted bssid ip
  flag : ip = IPADDR_ANY → sc.flag = false → sc.pmac = none

theorem found_scan (bssid : List UInt8) (ip : Nat) (s : DhcpServer) :
    Found bssid ip s (scan bssid (if ip = IPADDR_ANY then none else some ip) 0 s.plist
      ⟨none, none, false, s.start_ip⟩) := by
  have hmac := scan_pmac bssid (if ip = IPADDR_ANY then none else some ip) s.plist 0
    ⟨none, none, false, s.start_ip⟩
  have hip := scan_pip bssid (if ip = IPADDR_ANY then none else some ip) s.plist 0
    ⟨none, none, false, s.start_ip⟩
  refine ⟨?_, ?_, ?_, ?_⟩
  · grind
  · rcases hip with ⟨hnone, hother⟩ | ⟨i, e, hi, he, hfound⟩
    · grind
    · by_cases hany : ip = IPADDR_ANY
      · rw [if_pos hany] at he
        cases he
      · grind
  · unfold wanted
    by_cases hany : ip = IPADDR_ANY
    · rw [if_pos hany, if_pos hany]
      exact scan_start_ip
    · rw [if_neg hany, if_neg hany]
      rfl
  · grind

variable {s : DhcpServer}

theorem assign_cases {named : Option Nat}
    {sc : Scan} (hfound : Found bssid ip s sc)
    (hnamed : named = if ip = IPADDR_ANY then none else some ip) (hcast : ip ≠ IPADDR_BROADCAST)
    (hmacs : (s.plist.map DhcpsPool.mac).Nodup) :
    Updated bssid ip s (assign bssid named sc { s with renew := false }) := by
  obtain ⟨hclient, haddress, hwanted, -⟩ := hfound
  rw [← hnamed] at hwanted
  have htype : (if named = none then DhcpsType.dynamic else .static) = leaseType ip := by
    rw [hnamed]
    unfold leaseType
    by_cases hany : ip = IPADDR_ANY <;> simp [hany]
  have hheld : ∀ {i : Nat} {e : DhcpsPool}, s.plist[i]? = some e → e.ip = ip → e.mac ≠ bssid →
      e.state ≠ .offline → Updated bssid ip s (IPADDR_ANY, { s with renew := false }) := by
    intro i e hi hip hmac hstate
    refine .held hcast e (mem_of_getElem? hi) hip hmac ?_
    cases hcase : e.state with
    | online => rfl
    | offline => exact absurd hcase hstate
  unfold assign
  rw [htype, hwanted]
  rcases hclient with ⟨hpmac, hnew⟩ | ⟨m, mine, hm, hmac, hpmac⟩
  · rcases haddress with ⟨hpip, hfree⟩ | ⟨i, e, hi, hip, hne, hpip⟩
    · simp only [hpmac, hpip]
      split
      case isTrue hend => exact .exhausted hcast hnew hend
      case isFalse hend => exact .entered hcast hnew hfree (Nat.le_of_not_lt hend)
    · have hstatic : leaseType ip = .static := if_neg hne
      simp only [hpmac, hpip, hi, hstatic]
      split
      case isTrue hstate => exact hheld hi hip (hnew e (mem_of_getElem? hi)) hstate
      case isFalse hstate =>
        subst hip
        exact .taken i e hi hnew rfl
  · rcases haddress with ⟨hpip, hfree⟩ | ⟨i, e, hi, hip, hne, hpip⟩
    · simp only [hpmac, hpip, hm]
      exact .moved hcast m mine hm hmac hfree
    · have hstatic : leaseType ip = .static := if_neg hne
      simp only [hpmac, hpip, hi, hstatic]
      subst hip
      by_cases him : i = m
      · subst him
        obtain rfl := Option.some.inj (hi.symm.trans hm)
        rw [if_neg (not_not_intro rfl)]
        exact .renewed i e hi hmac rfl
      · rw [if_pos him]
        have hother : e.mac ≠ bssid := by
          intro heq
          have hlt : i < (s.plist.map DhcpsPool.mac).length := by
            rw [length_map]
            exact (List.getElem?_eq_some_iff.mp hi).1
          refine him ((getElem?_inj hlt hmacs).mp ?_)
          rw [getElem?_map, getElem?_map, hi, hm]
          exact congrArg some (heq.trans hmac.symm)
        split
        case isTrue hstate => exact hheld hi rfl hother hstate
        case isFalse hstate => exact .swapped i m e mine him hi hm hmac rfl

/-- **An update is one of these.** -/
theorem clientUpdate_cases (bssid : List UInt8) (ip : Nat)
    (hmacs : (s.plist.map DhcpsPool.mac).Nodup) :
    Updated bssid ip s (s.clientUpdate bssid ip) := by
  have hfound := found_scan bssid ip s
  unfold clientUpdate
  by_cases hbroadcast : ip = IPADDR_BROADCAST
  · rw [if_pos hbroadcast]
    exact .broadcast hbroadcast
  rw [if_neg hbroadcast]
  have hassign := assign_cases hfound rfl hbroadcast hmacs
  simp only
  generalize scan bssid (if ip = IPADDR_ANY then none else some ip) 0 s.plist
    ⟨none, none, false, s.start_ip⟩ = sc at hfound hassign ⊢
  generalize hnamed : (if ip = IPADDR_ANY then none else some ip) = named at hassign ⊢
  by_cases hempty : named = none ∧ sc.flag = false ∧ sc.start_ip > s.end_ip
  · rw [if_pos hempty]
    obtain ⟨hnone, hnoflag, hend⟩ := hempty
    have hany : ip = IPADDR_ANY := by
      by_contra hne
      rw [if_neg hne, hnone] at hnamed
      cases hnamed
    have hwanted := hfound.wanted
    rw [hnamed, hnone] at hwanted
    refine .exhausted hbroadcast ?_ (hwanted ▸ hend)
    rcases hfound.client with ⟨-, hnew⟩ | ⟨m, e, hm, he, hpmac⟩
    · exact hnew
    · rw [hfound.flag hany hnoflag] at hpmac
      cases hpmac
  · rw [if_neg hempty]
    exact hassign

end DhcpServer

end Dhcp
