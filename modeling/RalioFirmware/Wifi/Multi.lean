import Mathlib.Data.Int.Order.Basic
import RalioFirmware.Basis.CString
import RalioFirmware.Basis.ExchangeSort

/-!
# Several access points

Access points are added to a list.  To connect, the networks of a scan that have an SSID of the list
are put into an array of candidates, which has as many cells as the list, and sorted by their
strength; each is tried with the passphrases that go with its SSID.  The access points that were not
tried so are tried as hidden ones.

The indices of the loops have 8 bits, so that a loop may not end: `rounds` is the number of rounds
that a loop is followed for, and nothing is the result of one that has not ended by then.
-/

namespace WiFiMulti

open CString ExchangeSort

inductive wl_status_t where
  | WL_IDLE_STATUS | WL_NO_SSID_AVAIL | WL_SCAN_COMPLETED | WL_CONNECTED | WL_CONNECT_FAILED
  | WL_CONNECTION_LOST | WL_WRONG_PASSWORD | WL_DISCONNECTED
deriving DecidableEq, Repr

structure WifiAPEntry where
  ssid : List UInt8
  passphrase : List UInt8
deriving DecidableEq, Repr

/-! ## The list -/

def APlistExists (ssid passphrase : Option (List UInt8)) (aplist : List WifiAPEntry) : Bool :=
  match ssid with
  | none => false
  | some ssid =>
    if strlen ssid = 0 ∨ strlen ssid > 32 then false
    else aplist.any fun entry => strcmp entry.ssid ssid = 0 &&
      match passphrase with
      | none => strcmp entry.passphrase [] = 0
      | some passphrase => strcmp entry.passphrase passphrase = 0

/-- A call of `addAP`: null pointers are nothing, and either copy may fail. -/
structure AddAP where
  ssid : Option (List UInt8)
  passphrase : Option (List UInt8)
  ssidCopied : Bool
  passphraseCopied : Bool

def APlistAdd (call : AddAP) (aplist : List WifiAPEntry) : Bool × List WifiAPEntry :=
  match call.ssid with
  | none => (false, aplist)
  | some ssid =>
    if strlen ssid = 0 ∨ strlen ssid > 32 then (false, aplist)
    else if (call.passphrase.map strlen).getD 0 > 64 then (false, aplist)
    else if APlistExists (some ssid) call.passphrase aplist then (true, aplist)
    else if call.ssidCopied && call.passphraseCopied then
      (true, aplist ++ [⟨cstr ssid, cstr (call.passphrase.getD [])⟩])
    else (false, aplist)

/-- The list after calls of `addAP`. -/
def added (calls : List AddAP) : List WifiAPEntry :=
  calls.foldl (fun aplist call => (APlistAdd call aplist).2) []

/-! ## The scan -/

/-- A network as the scan has it; the SSID is 32 bytes, with a NUL behind a shorter one. -/
structure bss_info where
  ssid : List UInt8
  rssi : Int

/-- `int8_t` -/
def int8 (x : Int) : Int := x.bmod 256

def scanComplete (scan : List bss_info) : Int := int8 scan.length

/-- The SSID that `getNetworkInfo` gives.  Every index that is asked for is one of the scan, so that
no text of before is kept. -/
def networkSSID (scan : List bss_info) (i : Nat) : List UInt8 :=
  match scan[i]? with
  | some it => cstr (it.ssid.take 32)
  | none => []

def RSSI (scan : List bss_info) (i : Nat) : Int :=
  match scan[i]? with
  | some it => it.rssi
  | none => 0

/-! ## Candidates -/

/-- `numNetworks` has 8 bits. -/
structure Candidates where
  numNetworks : Nat
  known : Cells Nat

/-- `known[numNetworks++] = i` -/
def addKnown (c : Candidates) (i : Nat) : Candidates :=
  ⟨(c.numNetworks + 1) % 256, c.known.set c.numNetworks i⟩

def hasSSID (scan : List bss_info) (i : Nat) (entry : WifiAPEntry) : Bool :=
  strcmp (networkSSID scan i) entry.ssid = 0

variable (aplist : List WifiAPEntry) (scan : List bss_info)

def findKnown (stack : Nat → Nat) : Candidates :=
  (List.range (scanComplete scan).toNat).foldl
    (fun c i => aplist.foldl (fun c entry => if hasSSID scan i entry then addKnown c i else c) c)
    ⟨0, ⟨stack, []⟩⟩

def candidates (stack : Nat → Nat) : Candidates :=
  let c := findKnown aplist scan stack
  { c with known := sort (RSSI scan) c.numNetworks c.known }

/-! ## Attempts -/

inductive Attempt where
  /-- `WiFi.begin(ssid, entry.passphrase, channel, bssid)`, for a network and an entry -/
  | network (i j : Nat)
  /-- `WiFi.begin(entry.ssid, entry.passphrase)` -/
  | hidden (j : Nat)
deriving DecidableEq, Repr

def waitWiFiConnect (status : wl_status_t) : wl_status_t :=
  if status = .WL_CONNECTED then status else .WL_CONNECT_FAILED

structure Run where
  attempts : List Attempt
  connectSkipIndex : Nat → Bool

def Run.skip (j : Nat) (r : Run) : Run :=
  { r with connectSkipIndex := fun k => if k = j then true else r.connectSkipIndex k }

def printIndices (numNetworks : Nat) : Nat → Int → Option Unit
  | 0, _ => none
  | rounds + 1, i =>
    if i < numNetworks then printIndices numNetworks rounds (int8 (i + 1)) else some ()

-- What the status is when the wait for the last of the attempts ends.
variable (status : List Attempt → wl_status_t)

/-- The entries from `j` on, for the network `i`. -/
def tryEntries (i : Nat) : Nat → Nat → Run → Option (Bool × Run)
  | 0, _, _ => none
  | rounds + 1, j, r =>
    match aplist[j]? with
    | none => some (false, r)
    | some entry =>
      if hasSSID scan i entry then
        let r := { r with attempts := r.attempts ++ [.network i j] }
        if waitWiFiConnect (status r.attempts) = .WL_CONNECTED then some (true, r)
        else tryEntries i rounds ((j + 1) % 256) (r.skip j)
      else tryEntries i rounds ((j + 1) % 256) r

/-- The candidates from `i` on. -/
def tryNetworks (c : Candidates) (entryRounds : Nat) : Nat → Int → Run → Option (Bool × Run)
  | 0, _, _ => none
  | rounds + 1, i, r =>
    if i < c.numNetworks then
      match tryEntries aplist scan status (c.known.mem i.toNat) entryRounds 0 r with
      | none => none
      | some (true, r) => some (true, r)
      | some (false, r) => tryNetworks c entryRounds rounds (int8 (i + 1)) r
    else some (false, r)

/-- The entries from `j` on, as hidden ones. -/
def tryHidden : Nat → Nat → Run → Option (Bool × Run)
  | 0, _, _ => none
  | rounds + 1, j, r =>
    match aplist[j]? with
    | none => some (false, r)
    | some _ =>
      if r.connectSkipIndex j then tryHidden rounds ((j + 1) % 256) r
      else
        let r := { r with attempts := r.attempts ++ [.hidden j] }
        if waitWiFiConnect (status r.attempts) = .WL_CONNECTED then some (true, r)
        else tryHidden rounds ((j + 1) % 256) r

def connectWiFiMulti (stack : Nat → Nat) (rounds : Nat) : Option (wl_status_t × List Attempt) :=
  let c := candidates aplist scan stack
  match printIndices c.numNetworks rounds 0 with
  | none => none
  | some () =>
    match tryNetworks aplist scan status c rounds rounds 0 ⟨[], fun _ => false⟩ with
    | none => none
    | some (true, r) => some (.WL_CONNECTED, r.attempts)
    | some (false, r) =>
      match tryHidden aplist status rounds 0 r with
      | none => none
      | some (true, r) => some (.WL_CONNECTED, r.attempts)
      | some (false, r) => some (.WL_CONNECT_FAILED, r.attempts)

end WiFiMulti
