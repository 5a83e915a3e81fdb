import RalioFirmware.Basis.Tries
import RalioFirmware.Wifi.Multi

/-!
# What is tried

The candidates are written in the order of the scan, one for each entry that has the SSID of a
network, and the array has as many cells as there are entries.  As long as they fit, and the indices
of 8 bits reach the ends of their loops, all that the list and the scan have in common is tried, the
strongest network first, and then what is left of the list.
-/

namespace WiFiMulti

open CString ExchangeSort Tries List

variable {aplist : List WifiAPEntry} {scan : List bss_info}

/-! ## The array of candidates -/

/-- The networks that the loop over the scan comes to, each as often as its SSID is listed. -/
def matchesOf (aplist : List WifiAPEntry) (scan : List bss_info) : List Nat :=
  (List.range (scanComplete scan).toNat).flatMap fun i =>
    (aplist.filter (hasSSID scan i)).map fun _ => i

theorem foldl_entries (i : Nat) (c : Candidates) :
    aplist.foldl (fun c entry => if hasSSID scan i entry then addKnown c i else c) c =
      ((aplist.filter (hasSSID scan i)).map fun _ => i).foldl addKnown c := by
  induction aplist generalizing c with
  | nil => rfl
  | cons entry aplist ih =>
    rw [foldl_cons, ih]
    by_cases h : hasSSID scan i entry
    · grind
    · rw [if_neg h, filter_cons_of_neg h]

theorem findKnown_eq (stack : Nat → Nat) : findKnown aplist scan stack =
    (matchesOf aplist scan).foldl addKnown ⟨0, ⟨stack, []⟩⟩ := by
  rw [findKnown, matchesOf, foldl_flatMap]
  congr 1
  funext c i
  exact foldl_entries i c

theorem foldl_addKnown (ms : List Nat) {c : Candidates} (h : c.numNetworks + ms.length ≤ 255) :
    (ms.foldl addKnown c).numNetworks = c.numNetworks + ms.length ∧
      (∀ p (hp : p < ms.length), (ms.foldl addKnown c).known.mem (c.numNetworks + p) = ms[p]) ∧
      (∀ k < c.numNetworks, (ms.foldl addKnown c).known.mem k = c.known.mem k) ∧
      (ms.foldl addKnown c).known.writes =
        c.known.writes ++ List.range' c.numNetworks ms.length := by
  induction ms generalizing c with
  | nil => exact ⟨rfl, fun p hp => absurd hp (Nat.not_lt_zero p), fun _ _ => rfl,
      (append_nil _).symm⟩
  | cons m ms ih =>
    rw [length_cons] at h
    have hnum : (addKnown c m).numNetworks = c.numNetworks + 1 :=
      Nat.mod_eq_of_lt (by omega)
    obtain ⟨hcount, hmem, hfront, hwrites⟩ := ih (c := addKnown c m) (by omega)
    rw [hnum] at hcount hmem hfront hwrites
    rw [foldl_cons]
    refine ⟨by rw [hcount, length_cons]; omega, fun p hp => ?_, fun k hk => ?_, ?_⟩
    · cases p with
      | zero =>
        rw [Nat.add_zero, hfront c.numNetworks (Nat.lt_succ_self _)]
        exact if_pos rfl
      | succ p =>
        have hat : c.numNetworks + (p + 1) = c.numNetworks + 1 + p := by omega
        rw [hat, hmem p (Nat.lt_of_succ_lt_succ hp), getElem_cons_succ]
    · rw [hfront k (by omega)]
      exact if_neg (by omega)
    · rw [hwrites, length_cons, range'_succ]
      exact append_assoc _ _ _

theorem mem_writes_foldl {ms : List Nat} {c : Candidates} {w : Nat} (hw : w ∈ c.known.writes) :
    w ∈ (ms.foldl addKnown c).known.writes := by
  induction ms generalizing c with
  | nil => exact hw
  | cons m ms ih => exact ih (mem_append_left _ hw)

variable {stack : Nat → Nat}

theorem mem_writes_of_overflow {size : Nat} (hsize : size ≤ 255)
    (h : size < (matchesOf aplist scan).length) :
    size ∈ (candidates aplist scan stack).known.writes := by
  have hsplit : matchesOf aplist scan = (matchesOf aplist scan).take size ++
      (matchesOf aplist scan)[size] :: (matchesOf aplist scan).drop (size + 1) := by
    rw [← drop_eq_getElem_cons h, take_append_drop]
  have htake : ((matchesOf aplist scan).take size).length = size := length_take_of_le h.le
  have hfill := foldl_addKnown ((matchesOf aplist scan).take size) (c := ⟨0, ⟨stack, []⟩⟩)
    (by rw [htake, Nat.zero_add]; exact hsize)
  have hfound : size ∈ (findKnown aplist scan stack).known.writes := by
    rw [findKnown_eq, hsplit, foldl_append, foldl_cons]
    refine mem_writes_foldl (mem_append_right _ ?_)
    rw [hfill.1, htake, Nat.zero_add]
    exact mem_singleton.mpr rfl
  obtain ⟨hrearranged, -⟩ := sort_spec (RSSI scan) (findKnown aplist scan stack).numNetworks
    (findKnown aplist scan stack).known
  obtain ⟨new, heq, -⟩ := hrearranged.writes
  unfold candidates
  dsimp only
  rw [heq]
  exact mem_append_left _ hfound

structure Chosen (aplist : List WifiAPEntry) (scan : List bss_info) (c : Candidates) : Prop where
  count : c.numNetworks = (matchesOf aplist scan).length
  inside : ∀ w ∈ c.known.writes, w < (matchesOf aplist scan).length
  mem_iff : ∀ i, (∃ p < c.numNetworks, c.known.mem p = i) ↔ i ∈ matchesOf aplist scan
  order : ∀ p q, p < q → q < c.numNetworks →
    RSSI scan (c.known.mem q) ≤ RSSI scan (c.known.mem p)

theorem findKnown_spec (stack : Nat → Nat) (h : (matchesOf aplist scan).length ≤ 255) :
    (findKnown aplist scan stack).numNetworks = (matchesOf aplist scan).length ∧
      (∀ p (hp : p < (matchesOf aplist scan).length),
        (findKnown aplist scan stack).known.mem p = (matchesOf aplist scan)[p]) ∧
      (findKnown aplist scan stack).known.writes =
        List.range' 0 (matchesOf aplist scan).length := by
  have hfill := foldl_addKnown (matchesOf aplist scan) (c := ⟨0, ⟨stack, []⟩⟩)
    (by rw [Nat.zero_add]; exact h)
  rw [findKnown_eq]
  refine ⟨hfill.1.trans (Nat.zero_add _), fun p hp => ?_,
    hfill.2.2.2.trans (nil_append _)⟩
  have hzero : (⟨0, ⟨stack, []⟩⟩ : Candidates).numNetworks + p = p := Nat.zero_add p
  have hvalue := hfill.2.1 p hp
  rw [hzero] at hvalue
  exact hvalue

theorem chosen_candidates (stack : Nat → Nat) (h : (matchesOf aplist scan).length ≤ 255) :
    Chosen aplist scan (candidates aplist scan stack) := by
  obtain ⟨hcount, hmem, hwrites⟩ := findKnown_spec stack h
  unfold candidates
  generalize findKnown aplist scan stack = c at hcount hmem hwrites ⊢
  obtain ⟨hrearranged, horder⟩ := sort_spec (RSSI scan) c.numNetworks c.known
  refine ⟨hcount, ?_, fun i => ?_, horder⟩
  · obtain ⟨new, heq, hnew⟩ := hrearranged.writes
    intro w hw
    have hw : w ∈ c.known.writes ++ new := heq ▸ hw
    rcases mem_append.mp hw with hw | hw
    · rw [hwrites] at hw
      have hrange := mem_range'_1.mp hw
      omega
    · rw [← hcount]
      exact hnew w hw
  · refine (hrearranged.mem_iff i).trans ?_
    rw [hcount]
    constructor
    · grind
    · intro hi
      obtain ⟨p, hp, rfl⟩ := getElem_of_mem hi
      exact ⟨p, hp, hmem p hp⟩

/-! ## The loops -/

variable {n : Nat}

theorem int8_of_small (h : n ≤ 127) : int8 n = n := by
  unfold int8
  exact Int.bmod_eq_of_le (by omega) (by omega)

def connects (status : List Attempt → wl_status_t) (made : List Attempt) : Bool :=
  status made = .WL_CONNECTED

/-- The entry `j` has the SSID of the network `i`. -/
def fits (aplist : List WifiAPEntry) (scan : List bss_info) (i j : Nat) : Bool :=
  match aplist[j]? with
  | some entry => hasSSID scan i entry
  | none => false

theorem waitWiFiConnect_iff (status : wl_status_t) :
    waitWiFiConnect status = .WL_CONNECTED ↔ status = .WL_CONNECTED := by
  unfold waitWiFiConnect
  split
  · rfl
  · next h => exact iff_of_false (fun heq => by cases heq) h

/-- The attempts with the entries from `j` on. -/
def entriesFrom (aplist : List WifiAPEntry) (scan : List bss_info) (i j : Nat) : List Attempt :=
  ((List.range' j (aplist.length - j)).filter (fits aplist scan i)).map (.network i)

variable {i j : Nat}

theorem range'_left {n : Nat} (hj : j < n) :
    range' j (n - j) = j :: range' (j + 1) (n - (j + 1)) := by
  rw [← range'_succ, Nat.sub_add_eq, Nat.sub_add_cancel (Nat.sub_pos_of_lt hj)]

theorem entriesFrom_cons (hj : j < aplist.length) : entriesFrom aplist scan i j =
    if fits aplist scan i j then .network i j :: entriesFrom aplist scan i (j + 1)
    else entriesFrom aplist scan i (j + 1) := by
  rw [entriesFrom, range'_left hj]
  by_cases h : fits aplist scan i j
  · rw [if_pos h, filter_cons_of_pos h]
    rfl
  · rw [if_neg h, filter_cons_of_neg h]
    rfl

variable {status : List Attempt → wl_status_t}

theorem tryEntries_eq (hsize : aplist.length ≤ 255) (i : Nat) {rounds j : Nat}
    (hrounds : aplist.length - j < rounds) (r : Run) :
    ∃ skip, tryEntries aplist scan status i rounds j r =
        some ((tryAll (connects status) (entriesFrom aplist scan i j) r.attempts).1,
          ⟨(tryAll (connects status) (entriesFrom aplist scan i j) r.attempts).2, skip⟩) ∧
      ((tryAll (connects status) (entriesFrom aplist scan i j) r.attempts).1 = false →
        ∀ k, skip k = (r.connectSkipIndex k || (decide (j ≤ k) && fits aplist scan i k))) := by
  induction rounds generalizing j r with
  | zero => omega
  | succ rounds ih =>
    by_cases hj : j < aplist.length
    · have hentry : aplist[j]? = some aplist[j] := getElem?_eq_getElem hj
      have hnext : (j + 1) % 256 = j + 1 := Nat.mod_eq_of_lt (by omega)
      have hfits : fits aplist scan i j = hasSSID scan i aplist[j] := by rw [fits, hentry]
      simp only [tryEntries, hentry, hnext, entriesFrom_cons hj, hfits]
      by_cases h : hasSSID scan i aplist[j] = true
      · simp only [if_pos h, tryAll, waitWiFiConnect_iff]
        by_cases hok : status (r.attempts ++ [.network i j]) = .WL_CONNECTED
        · have hconnects : connects status (r.attempts ++ [.network i j]) = true :=
            decide_eq_true hok
          rw [if_pos hok, if_pos hconnects]
          exact ⟨r.connectSkipIndex, rfl, fun hfail => by cases hfail⟩
        · have hconnects : ¬ connects status (r.attempts ++ [.network i j]) = true :=
            fun hc => hok (of_decide_eq_true hc)
          rw [if_neg hok, if_neg hconnects]
          obtain ⟨skip, heq, hskip⟩ := ih (j := j + 1) (by omega)
            (Run.skip j { r with attempts := r.attempts ++ [.network i j] })
          refine ⟨skip, heq, fun hfail k => ?_⟩
          rw [hskip hfail k]
          simp only [Run.skip]
          by_cases hk : k = j
          · grind
          · have hle : (j + 1 ≤ k) = (j ≤ k) := propext (by omega)
            simp only [if_neg hk, hle]
      · simp only [if_neg h]
        obtain ⟨skip, heq, hskip⟩ := ih (j := j + 1) (by omega) r
        refine ⟨skip, heq, fun hfail k => ?_⟩
        rw [hskip hfail k]
        by_cases hk : k = j
        · rw [hk, hfits, Bool.not_eq_true _ |>.mp h, Bool.and_false, Bool.and_false]
        · have hle : (j + 1 ≤ k) = (j ≤ k) := propext (by omega)
          simp only [hle]
    · have hentry : aplist[j]? = none := getElem?_eq_none (by omega)
      have hnone : entriesFrom aplist scan i j = [] := by
        have hcount : aplist.length - j = 0 := by omega
        rw [entriesFrom, hcount]
        rfl
      simp only [tryEntries, hentry, hnone, tryAll]
      refine ⟨r.connectSkipIndex, rfl, fun _ k => ?_⟩
      by_cases hk : j ≤ k
      · have hnofit : fits aplist scan i k = false := by
          rw [fits, getElem?_eq_none (by omega)]
        rw [hnofit, Bool.and_false, Bool.or_false]
      · rw [decide_eq_false hk, Bool.false_and, Bool.or_false]

/-- The attempts with the candidates from `p` on. -/
def networksFrom (aplist : List WifiAPEntry) (scan : List bss_info) (c : Candidates) (p : Nat) :
    List Attempt :=
  (List.range' p (c.numNetworks - p)).flatMap fun q => entriesFrom aplist scan (c.known.mem q) 0

theorem tryNetworks_eq (hsize : aplist.length ≤ 255) {c : Candidates}
    (hcount : c.numNetworks ≤ 127) {entryRounds rounds p : Nat}
    (hentries : aplist.length < entryRounds) (hrounds : c.numNetworks - p < rounds)
    (hp : p ≤ c.numNetworks) (r : Run) :
    ∃ skip, tryNetworks aplist scan status c entryRounds rounds p r =
        some ((tryAll (connects status) (networksFrom aplist scan c p) r.attempts).1,
          ⟨(tryAll (connects status) (networksFrom aplist scan c p) r.attempts).2, skip⟩) ∧
      ((tryAll (connects status) (networksFrom aplist scan c p) r.attempts).1 = false →
        ∀ k, skip k = (r.connectSkipIndex k || (List.range' p (c.numNetworks - p)).any
          fun q => fits aplist scan (c.known.mem q) k)) := by
  induction rounds generalizing p r with
  | zero => omega
  | succ rounds ih =>
    by_cases hlt : p < c.numNetworks
    · have hrange := range'_left hlt
      have hfrom : networksFrom aplist scan c p =
          entriesFrom aplist scan (c.known.mem p) 0 ++ networksFrom aplist scan c (p + 1) := by
        rw [networksFrom, hrange, flatMap_cons]
        rfl
      have hcond : (p : Int) < c.numNetworks := Int.ofNat_lt.mpr hlt
      have hnext : int8 ((p : Int) + 1) = ((p + 1 : Nat) : Int) :=
        int8_of_small (n := p + 1) (by omega)
      obtain ⟨skip, heq, hskip⟩ := @tryEntries_eq aplist scan status hsize (c.known.mem p)
        entryRounds 0 hentries r
      simp only [tryNetworks, if_pos hcond, Int.toNat_natCast, heq, hnext, hfrom, tryAll_append]
      cases hdone : (tryAll (connects status) (entriesFrom aplist scan (c.known.mem p) 0)
          r.attempts).1 with
      | true =>
        grind
      | false =>
        obtain ⟨skip', heq', hskip'⟩ := ih (p := p + 1) (by omega) (by omega)
          ⟨(tryAll (connects status) (entriesFrom aplist scan (c.known.mem p) 0)
            r.attempts).2, skip⟩
        refine ⟨skip', ?_, fun hfail k => ?_⟩
        · grind
        · rw [if_neg Bool.false_ne_true] at hfail
          have hbefore := hskip hdone k
          rw [hskip' hfail k, hrange, any_cons]
          simp only [hbefore, Nat.zero_le, decide_true, Bool.true_and, Bool.or_assoc]
    · have hend : p = c.numNetworks := by omega
      have hcond : ¬ (p : Int) < c.numNetworks := fun h => hlt (Int.ofNat_lt.mp h)
      have hnone : networksFrom aplist scan c p = [] := by
        rw [networksFrom, hend, Nat.sub_self]
        rfl
      simp only [tryNetworks, if_neg hcond, hnone, tryAll]
      refine ⟨r.connectSkipIndex, rfl, fun _ k => ?_⟩
      rw [hend, Nat.sub_self, range'_zero, any_nil, Bool.or_false]

/-- The attempts with hidden access points, of the entries from `j` on. -/
def hiddenFrom (aplist : List WifiAPEntry) (skip : Nat → Bool) (j : Nat) : List Attempt :=
  ((List.range' j (aplist.length - j)).filter fun k => !skip k).map .hidden

theorem tryHidden_eq (hsize : aplist.length ≤ 255) {rounds j : Nat}
    (hrounds : aplist.length - j < rounds) (r : Run) :
    tryHidden aplist status rounds j r =
      some ((tryAll (connects status) (hiddenFrom aplist r.connectSkipIndex j) r.attempts).1,
        ⟨(tryAll (connects status) (hiddenFrom aplist r.connectSkipIndex j) r.attempts).2,
          r.connectSkipIndex⟩) := by
  induction rounds generalizing j r with
  | zero => omega
  | succ rounds ih =>
    by_cases hj : j < aplist.length
    · have hentry : aplist[j]? = some aplist[j] := getElem?_eq_getElem hj
      have hnext : (j + 1) % 256 = j + 1 := Nat.mod_eq_of_lt (by omega)
      have hrange := range'_left hj
      by_cases hskip : r.connectSkipIndex j = true
      · have hfrom : hiddenFrom aplist r.connectSkipIndex j =
            hiddenFrom aplist r.connectSkipIndex (j + 1) := by
          rw [hiddenFrom, hrange, filter_cons_of_neg (by rw [hskip]; decide)]
          rfl
        simp only [tryHidden, hentry, hnext, if_pos hskip, hfrom]
        exact ih (by omega) r
      · have hfrom : hiddenFrom aplist r.connectSkipIndex j =
            .hidden j :: hiddenFrom aplist r.connectSkipIndex (j + 1) := by
          have hkeep : (!r.connectSkipIndex j) = true := by grind
          rw [hiddenFrom, hrange,
            filter_cons_of_pos (p := fun k => !r.connectSkipIndex k) hkeep]
          rfl
        simp only [tryHidden, hentry, hnext, if_neg hskip, hfrom, tryAll, waitWiFiConnect_iff]
        by_cases hok : status (r.attempts ++ [.hidden j]) = .WL_CONNECTED
        · have hconnects : connects status (r.attempts ++ [.hidden j]) = true :=
            decide_eq_true hok
          rw [if_pos hok, if_pos hconnects]
        · have hconnects : ¬ connects status (r.attempts ++ [.hidden j]) = true :=
            fun hc => hok (of_decide_eq_true hc)
          rw [if_neg hok, if_neg hconnects]
          exact ih (j := j + 1) (by omega) ⟨r.attempts ++ [.hidden j], r.connectSkipIndex⟩
    · have hentry : aplist[j]? = none := getElem?_eq_none (by omega)
      have hnone : hiddenFrom aplist r.connectSkipIndex j = [] := by
        have hcount : aplist.length - j = 0 := by omega
        rw [hiddenFrom, hcount]
        rfl
      simp only [tryHidden, hentry, hnone, tryAll]

variable {rounds : Nat}

theorem printIndices_eq {p : Nat} (hn : n ≤ 127) (hrounds : n - p < rounds)
    (hp : p ≤ n) : printIndices n rounds p = some () := by
  induction rounds generalizing p with
  | zero => omega
  | succ rounds ih =>
    by_cases hlt : p < n
    · have hcond : (p : Int) < n := Int.ofNat_lt.mpr hlt
      have hnext : int8 ((p : Int) + 1) = ((p + 1 : Nat) : Int) :=
        int8_of_small (n := p + 1) (by omega)
      rw [printIndices, if_pos hcond, hnext]
      exact ih (by omega) (by omega)
    · have hcond : ¬ (p : Int) < n := fun h => hlt (Int.ofNat_lt.mp h)
      rw [printIndices, if_neg hcond]

theorem printIndices_none (hn : 127 < n) (rounds : Nat) {i : Int} (hi : i ≤ 127) :
    printIndices n rounds i = none := by
  induction rounds generalizing i with
  | zero => rfl
  | succ rounds ih =>
    have hcond : i < n := by omega
    have hnext : int8 (i + 1) ≤ 127 := by
      have hlt : (i + 1).bmod 256 < 128 := Int.bmod_lt (by decide)
      unfold int8
      omega
    rw [printIndices, if_pos hcond]
    exact ih hnext

theorem tryHidden_none (hsize : 256 ≤ aplist.length) (hstatus : ∀ made, status made ≠ .WL_CONNECTED)
    (rounds : Nat) (hj : j < 256) (r : Run) : tryHidden aplist status rounds j r =
        none := by
  induction rounds generalizing j r with
  | zero => rfl
  | succ rounds ih =>
    have hentry : aplist[j]? = some aplist[j] := getElem?_eq_getElem (by omega)
    have hnext : (j + 1) % 256 < 256 := Nat.mod_lt _ (by decide)
    simp only [tryHidden, hentry, waitWiFiConnect_iff, if_neg (hstatus _), ih hnext, ite_self]

/-! ## The whole function -/

def skipped (aplist : List WifiAPEntry) (scan : List bss_info) (c : Candidates) (k : Nat) : Bool :=
  (List.range' 0 c.numNetworks).any fun q => fits aplist scan (c.known.mem q) k

def plan (aplist : List WifiAPEntry) (scan : List bss_info) (c : Candidates) : List Attempt :=
  networksFrom aplist scan c 0 ++ hiddenFrom aplist (skipped aplist scan c) 0

theorem connectWiFiMulti_eq (hsize : aplist.length ≤ 255)
    (hcount : (candidates aplist scan stack).numNetworks ≤ 127)
    (hrounds : 256 ≤ rounds) : connectWiFiMulti aplist scan status stack rounds =
      some (if (tryAll (connects status) (plan aplist scan (candidates aplist scan stack)) []).1
          then .WL_CONNECTED else .WL_CONNECT_FAILED,
        (tryAll (connects status) (plan aplist scan (candidates aplist scan stack)) []).2) := by
  unfold connectWiFiMulti
  generalize candidates aplist scan stack = c at hcount ⊢
  have hprint : printIndices c.numNetworks rounds 0 = some () :=
    printIndices_eq (p := 0) hcount (by omega) (Nat.zero_le _)
  obtain ⟨skip, hnetworks, hskip⟩ := @tryNetworks_eq aplist scan status hsize c hcount rounds rounds
    0 (by omega) (by omega) (Nat.zero_le _) ⟨[], fun _ => false⟩
  have hnetworks : tryNetworks aplist scan status c rounds rounds 0 ⟨[], fun _ => false⟩ = _ :=
    hnetworks
  simp only [hprint, hnetworks, plan, tryAll_append]
  cases hdone : (tryAll (connects status) (networksFrom aplist scan c 0) []).1 with
  | true => simp only [if_true, hdone]
  | false =>
    have hskipped : skip = skipped aplist scan c := by
      funext k
      rw [hskip hdone k, Bool.false_or]
      rfl
    subst hskipped
    have hhidden := @tryHidden_eq aplist status hsize rounds 0 (by omega)
      ⟨(tryAll (connects status) (networksFrom aplist scan c 0) []).2, skipped aplist scan c⟩
    simp only [hhidden, Bool.false_eq_true, if_false]
    cases (tryAll (connects status) (hiddenFrom aplist (skipped aplist scan c) 0)
      (tryAll (connects status) (networksFrom aplist scan c 0) []).2).1 <;> rfl

variable {r' : Run}

theorem tryEntries_failed (hstatus : ∀ made, status made ≠ .WL_CONNECTED)
    {r : Run} : tryEntries aplist scan status i rounds j r ≠ some (true, r') := by
  induction rounds generalizing j r with
  | zero => exact fun h => by cases h
  | succ rounds ih =>
    unfold tryEntries
    cases aplist[j]? with
    | none => exact fun h => by cases h
    | some entry =>
      simp only [waitWiFiConnect_iff, if_neg (hstatus _)]
      split
      · exact ih
      · exact ih

theorem tryNetworks_failed (hstatus : ∀ made, status made ≠ .WL_CONNECTED) {c : Candidates}
    {entryRounds : Nat} {i : Int} {r : Run} :
    tryNetworks aplist scan status c entryRounds rounds i r ≠ some (true, r') := by
  induction rounds generalizing i r with
  | zero => exact fun h => by cases h
  | succ rounds ih =>
    unfold tryNetworks
    split
    · split
      · exact fun h => by cases h
      · next h => exact absurd h (tryEntries_failed hstatus)
      · exact ih
    · exact fun h => by cases h

theorem connectWiFiMulti_none (hsize : 256 ≤ aplist.length)
    (hstatus : ∀ made, status made ≠ .WL_CONNECTED) (stack : Nat → Nat) (rounds : Nat) :
    connectWiFiMulti aplist scan status stack rounds = none := by
  unfold connectWiFiMulti
  dsimp only
  split
  · rfl
  · split
    · rfl
    · next h => exact absurd h (tryNetworks_failed hstatus)
    · rw [tryHidden_none hsize hstatus rounds (by decide)]

/-! ## What is promised -/

/-- The SSID of the network `i` is that of the entry `j`. -/
def Listed (aplist : List WifiAPEntry) (scan : List bss_info) (i j : Nat) : Prop :=
  i < scan.length ∧ fits aplist scan i j = true

def strength (scan : List bss_info) : Attempt → Int
  | .network i _ => RSSI scan i
  | .hidden _ => 0

/-- **What there is to try**: every network with every entry that has its SSID, and no others, the
strongest network first; and then each other entry once, as a hidden one. -/
structure Plan (aplist : List WifiAPEntry) (scan : List bss_info) (scanned hidden : List Attempt) :
    Prop where
  listed : ∀ a ∈ scanned, ∃ i j, a = .network i j ∧ Listed aplist scan i j
  every : ∀ i j, Listed aplist scan i j → .network i j ∈ scanned
  order : scanned.Pairwise fun a b => strength scan b ≤ strength scan a
  rest : ∀ a, a ∈ hidden ↔
    ∃ j, a = .hidden j ∧ j < aplist.length ∧ ∀ i, ¬ Listed aplist scan i j
  once : hidden.Nodup

/-- Only the array of candidates is written, the function returns, and it has tried all there is to
try, up to the first attempt that connects; it has one just if it says so. -/
structure Selects (aplist : List WifiAPEntry) (scan : List bss_info)
    (status : List Attempt → wl_status_t) (stack : Nat → Nat) : Prop where
  inside : ∀ w ∈ (candidates aplist scan stack).known.writes, w < aplist.length
  tries : ∃ result made scanned hidden, (∃ enough, ∀ rounds, enough ≤ rounds →
      connectWiFiMulti aplist scan status stack rounds = some (result, made)) ∧
    Plan aplist scan scanned hidden ∧
    UpToSuccess (connects status) (scanned ++ hidden) (decide (result = .WL_CONNECTED)) made

/-- The pairs of a network and an entry with its SSID fit into the array and into the loops, and the
number of networks into its 8 bits as far as networks are listed. -/
structure Fit (aplist : List WifiAPEntry) (scan : List bss_info) : Prop where
  room : (matchesOf aplist scan).length ≤ aplist.length
  candidates : (matchesOf aplist scan).length ≤ 127
  entries : aplist.length ≤ 255
  seen : ∀ i j, Listed aplist scan i j → i < (scanComplete scan).toNat

theorem scanComplete_le : (scanComplete scan).toNat ≤ scan.length := by
  have hle : scanComplete scan ≤ scan.length := by
    unfold scanComplete int8
    rw [Int.bmod_def]
    split <;> omega
  omega

theorem lt_of_fits (h : fits aplist scan i j = true) : j < aplist.length := by
  by_contra hj
  rw [fits, getElem?_eq_none (by omega)] at h
  cases h

theorem mem_matchesOf : i ∈ matchesOf aplist scan ↔
    i < (scanComplete scan).toNat ∧ ∃ j, fits aplist scan i j = true := by
  simp only [matchesOf, mem_flatMap, mem_range, mem_map, mem_filter]
  constructor
  · rintro ⟨k, hk, entry, ⟨hentry, hssid⟩, rfl⟩
    obtain ⟨j, hj, rfl⟩ := getElem_of_mem hentry
    refine ⟨hk, j, ?_⟩
    rw [fits, getElem?_eq_getElem hj]
    exact hssid
  · rintro ⟨hi, j, hfits⟩
    have hj := lt_of_fits hfits
    rw [fits, getElem?_eq_getElem hj] at hfits
    exact ⟨i, hi, aplist[j], ⟨getElem_mem hj, hfits⟩, rfl⟩

theorem mem_networksFrom {c : Candidates} {a : Attempt} : a ∈ networksFrom aplist scan c 0 ↔
    ∃ p < c.numNetworks, ∃ j, a = .network (c.known.mem p) j ∧
      fits aplist scan (c.known.mem p) j = true := by
  simp only [networksFrom, entriesFrom, mem_flatMap, mem_range'_1, mem_map,
    mem_filter]
  constructor
  · grind
  · rintro ⟨p, hp, j, rfl, hfits⟩
    have hj := lt_of_fits hfits
    exact ⟨p, by omega, j, ⟨by omega, hfits⟩, rfl⟩

variable {c : Candidates}

theorem listed_of_mem (hc : Chosen aplist scan c) {p : Nat} (hp : p < c.numNetworks) :
    c.known.mem p < scan.length := by
  have hseen := (mem_matchesOf.mp ((hc.mem_iff _).mp ⟨p, hp, rfl⟩)).1
  exact lt_of_lt_of_le hseen scanComplete_le

theorem skipped_iff (hc : Chosen aplist scan c)
    (hseen : ∀ i j, Listed aplist scan i j → i < (scanComplete scan).toNat) (j : Nat) :
    skipped aplist scan c j = true ↔ ∃ i, Listed aplist scan i j := by
  simp only [skipped, any_eq_true, mem_range'_1]
  constructor
  · rintro ⟨p, ⟨-, hp⟩, hfits⟩
    exact ⟨c.known.mem p, listed_of_mem hc (by omega), hfits⟩
  · rintro ⟨i, hi⟩
    obtain ⟨p, hp, rfl⟩ := (hc.mem_iff i).mpr (mem_matchesOf.mpr ⟨hseen i j hi, j, hi.2⟩)
    exact ⟨p, by omega, hi.2⟩

theorem pairwise_networksFrom (hc : Chosen aplist scan c) :
    (networksFrom aplist scan c 0).Pairwise fun a b => strength scan b ≤ strength scan a := by
  have hstrength : ∀ i, ∀ a ∈ entriesFrom aplist scan i 0, strength scan a = RSSI scan i := by
    intro i a ha
    obtain ⟨j, -, rfl⟩ := mem_map.mp ha
    rfl
  refine pairwise_flatMap.mpr ⟨fun p _ => ?_, ?_⟩
  · refine pairwise_of_forall_mem_list fun a ha b hb => ?_
    rw [hstrength _ a ha, hstrength _ b hb]
  · refine List.Pairwise.imp_of_mem (fun {p q} _ hq hpq a ha b hb => ?_)
      (pairwise_lt_range' (s := 0) 1)
    rw [hstrength _ a ha, hstrength _ b hb]
    have hrange := mem_range'_1.mp hq
    exact hc.order p q hpq (by omega)

theorem plan_spec (hc : Chosen aplist scan c)
    (hseen : ∀ i j, Listed aplist scan i j → i < (scanComplete scan).toNat) :
    Plan aplist scan (networksFrom aplist scan c 0)
      (hiddenFrom aplist (skipped aplist scan c) 0) := by
  constructor
  case listed =>
    intro a ha
    obtain ⟨p, hp, j, rfl, hfits⟩ := mem_networksFrom.mp ha
    exact ⟨_, j, rfl, listed_of_mem hc hp, hfits⟩
  case every =>
    intro i j hi
    obtain ⟨p, hp, rfl⟩ := (hc.mem_iff i).mpr (mem_matchesOf.mpr ⟨hseen i j hi, j, hi.2⟩)
    exact mem_networksFrom.mpr ⟨p, hp, j, rfl, hi.2⟩
  case order => exact pairwise_networksFrom hc
  case rest =>
    intro a
    simp only [hiddenFrom, mem_map, mem_filter, mem_range'_1, Bool.not_eq_true',
      Bool.eq_false_iff, ne_eq, skipped_iff hc hseen, not_exists]
    constructor
    · grind
    · grind
  case once =>
    have hnodup := (nodup_range' (s := 0) (n := aplist.length - 0) 1).filter
      fun k => !skipped aplist scan c k
    exact hnodup.map fun j k heq => Attempt.hidden.inj heq

/-! ## Where the promise is kept -/

theorem selects_of_fit (hfit : Fit aplist scan) (status : List Attempt → wl_status_t)
    (stack : Nat → Nat) : Selects aplist scan status stack := by
  have hchosen := chosen_candidates stack (Nat.le_trans hfit.candidates (by decide))
  have hcount : (candidates aplist scan stack).numNetworks ≤ 127 := by
    rw [hchosen.count]
    exact hfit.candidates
  refine ⟨fun w hw => Nat.lt_of_lt_of_le (hchosen.inside w hw) hfit.room, _, _, _, _,
    ⟨256, fun rounds hrounds => connectWiFiMulti_eq hfit.entries hcount hrounds⟩,
    plan_spec hchosen hfit.seen, ?_⟩
  have hspec := tryAll_spec (connects status) (plan aplist scan (candidates aplist scan stack))
  cases hdone : (tryAll (connects status) (plan aplist scan (candidates aplist scan stack)) []).1
  all_goals
    rw [hdone] at hspec
    exact hspec

def neverConnected (_ : List Attempt) : wl_status_t := .WL_DISCONNECTED

theorem room_of_inside (hsize : aplist.length ≤ 255)
    (hinside : ∀ w ∈ (candidates aplist scan stack).known.writes, w < aplist.length) :
    (matchesOf aplist scan).length ≤ aplist.length := by
  by_contra hover
  exact Nat.lt_irrefl _ (hinside _ (mem_writes_of_overflow hsize (Nat.lt_of_not_le hover)))

variable {out : wl_status_t × List Attempt}

theorem entries_of_returns
    (h : connectWiFiMulti aplist scan neverConnected stack rounds = some out) :
    aplist.length ≤ 255 := by
  by_contra hsize
  rw [connectWiFiMulti_none (by omega) (fun made heq => by cases heq)] at h
  cases h

theorem numNetworks_of_returns
    (h : connectWiFiMulti aplist scan neverConnected stack rounds = some out) :
    (candidates aplist scan stack).numNetworks ≤ 127 := by
  by_contra hcount
  unfold connectWiFiMulti at h
  dsimp only at h
  rw [printIndices_none (Nat.lt_of_not_le hcount) rounds (by decide)] at h
  cases h

theorem fit_of_selects (h : Selects aplist scan neverConnected fun _ => 0) : Fit aplist scan := by
  obtain ⟨hinside, result, made, scanned, hidden, ⟨enough, hreturns⟩, hplan, htried⟩ := h
  have hout := hreturns (max enough 256) (Nat.le_max_left _ _)
  have hentries := entries_of_returns hout
  have hroom := room_of_inside hentries hinside
  have hchosen := chosen_candidates (fun _ => 0) (Nat.le_trans hroom hentries)
  have hcount := numNetworks_of_returns hout
  refine ⟨hroom, hchosen.count ▸ hcount, hentries, fun i j hi => ?_⟩
  -- Nothing connects, so that all is tried, and the network `i` is a candidate.
  rw [connectWiFiMulti_eq hentries hcount (Nat.le_max_right _ _)] at hout
  have hall := tryAll_spec (connects neverConnected)
    (plan aplist scan (candidates aplist scan fun _ => 0))
  have hfailed : result ≠ .WL_CONNECTED := fun hresult =>
    Bool.false_ne_true (htried.last.mp (decide_eq_true hresult)).2
  have hdone : (tryAll (connects neverConnected)
      (plan aplist scan (candidates aplist scan fun _ => 0)) []).1 = false :=
    Bool.eq_false_iff.mpr fun hsuccess => Bool.false_ne_true (hall.last.mp hsuccess).2
  have hmade : made = plan aplist scan (candidates aplist scan fun _ => 0) :=
    (Prod.mk.inj (Option.some.inj hout)).2.symm.trans (hall.all hdone)
  have hmem : Attempt.network i j ∈ made := by
    rw [htried.all (decide_eq_false hfailed)]
    exact mem_append_left _ (hplan.every i j hi)
  rw [hmade, plan] at hmem
  rcases mem_append.mp hmem with hmem | hmem
  · obtain ⟨p, hp, j', heq, -⟩ := mem_networksFrom.mp hmem
    rw [(Attempt.network.inj heq).1]
    exact (mem_matchesOf.mp ((hchosen.mem_iff _).mp ⟨p, hp, rfl⟩)).1
  · obtain ⟨k, -, heq⟩ := mem_map.mp hmem
    cases heq

/-- **What connecting does**: the promise is kept for all outcomes of the attempts just where the
matches of the scan with the list fit. -/
theorem selects_iff (calls : List AddAP) (scan : List bss_info) :
    (∀ status stack, Selects (added calls) scan status stack) ↔ Fit (added calls) scan :=
  ⟨fun h => fit_of_selects (h neverConnected fun _ => 0), selects_of_fit⟩

/-- Two networks of one name, and one access point: the second is written behind the array. -/
theorem not_selects : ¬ ∀ calls scan status stack, Selects (added calls) scan status stack := by
  intro h
  have hselects := h [⟨some [0x61], none, true, true⟩] [⟨[0x61], -40⟩, ⟨[0x61], -50⟩]
    neverConnected fun _ => 0
  exact absurd (hselects.inside 1 (by decide)) (by decide)

end WiFiMulti
