import RalioFirmware.Basis.Runs
import RalioFirmware.Mdns.Domain
import RalioFirmware.Mdns.Txt

/-!
# Writing domain names

A message names the host and its services again and again.  The writer keeps the place where
it wrote a name and puts a pointer to that place the next time.

`domain_codec` says that every name of a message is read back where it was written, as long as
no label is empty and no pointer goes further than its 14 bits reach; the writer checks
neither.
-/

namespace Mdns

open CString Runs List
open UInt8 (ofNat)
open Option (bind_eq_some_iff some.inj)

/-! ## The names -/

/-- `stcMDNSService`; `dynamic` is what the callbacks of the service add while a message is
composed. -/
structure Service where
  name : Option (List UInt8)
  service : Option (List UInt8)
  protocol : Option (List UInt8)
  port : Nat
  txts : List ServiceTxt
  dynamic : List AddTxt
  replyMask : BitVec 8

structure Names where
  hostname : Option (List UInt8)
  services : List Service

def scpcLocal : List UInt8 := [108, 111, 99, 97, 108]

/-- `MDNS_DOMAIN_LABEL_MAXLENGTH`. -/
def labelMaxLength : Nat := 63

def labelText (label : Option (List UInt8)) (prependUnderline : Bool) : List UInt8 :=
  match label with
  | none => []
  | some label => if prependUnderline then 95 :: cstr label else cstr label

def addLabel (name : List UInt8) (label : Option (List UInt8)) (prependUnderline : Bool) :
    Option (List UInt8) :=
  let text := labelText label prependUnderline
  if labelMaxLength ≥ text.length ∧ domainMaxLength ≥ name.length + (1 + text.length) then
    some (name ++ UInt8.ofNat text.length :: text)
  else none

def buildDomainForHost (hostname : Option (List UInt8)) : Option (List UInt8) :=
  match hostname with
  | none => none
  | some hostname =>
    if cstr hostname = [] then none
    else
      (addLabel [] (some hostname) false).bind fun name =>
        (addLabel name (some scpcLocal) false).bind fun name => addLabel name none false

def buildDomainForService (s : Service) (includeName : Bool) : Option (List UInt8) :=
  (if includeName then addLabel [] s.name false else some []).bind fun name =>
    (addLabel name s.service true).bind fun name =>
      (addLabel name s.protocol true).bind fun name =>
        (addLabel name (some scpcLocal) false).bind fun name => addLabel name none false

/-- What a cache item stands for: the host name, or a service with or without its name. -/
inductive DomainKey where
  | host
  | service (i : Nat) (includeName : Bool)
  deriving DecidableEq

def buildDomain (cfg : Names) : DomainKey → Option (List UInt8)
  | .host => buildDomainForHost cfg.hostname
  | .service i includeName => cfg.services[i]?.bind (buildDomainForService · includeName)

/-! ## The writer -/

/-- The message so far, and of `stcMDNSSendParameter` the offset and the cached domains. -/
structure Out where
  bytes : List UInt8
  offset : Nat
  cache : List (DomainKey × Nat)

def Out.init : Out := ⟨[], 0, []⟩

namespace Out

/-- `_udpAppendBuffer` and `shiftOffset`. -/
def append (out : Out) (bytes : List UInt8) : Out :=
  { out with bytes := out.bytes ++ bytes, offset := (out.offset + bytes.length) % 65536 }

def write8 (out : Out) (value : Nat) : Out := out.append [UInt8.ofNat value]

def write16 (out : Out) (value : Nat) : Out :=
  out.append [UInt8.ofNat (value / 256), UInt8.ofNat value]

def findCachedDomainOffset (out : Out) (key : DomainKey) : Nat :=
  match out.cache.find? (·.1 = key) with
  | some item => item.2
  | none => 0

def addDomainCacheItem (out : Out) (key : DomainKey) (offset : Nat) : Option Out :=
  if offset = 0 then none else some { out with cache := (key, offset) :: out.cache }

/-- `_writeMDNSRRDomain`. -/
def writeRRDomain (out : Out) (name : List UInt8) : Option Out :=
  if name.length = 0 then none else some (out.append name)

/-- The pointer to a cached domain; `front` is what comes before it. -/
def writePointer (out : Out) (cached : Nat) : Option Out :=
  if 0xC0 > ((cached >>> 8) &&& 0x3F) then
    some ((out.write8 ((cached >>> 8) ||| 0xC0)).write8 (cached &&& 0xFF))
  else none

/-- `_writeMDNSHostDomain` and `_writeMDNSServiceDomain`, which differ in their domain.  Without
`compress` a cached domain is written out again, as an answer SRV does for a legacy query. -/
def writeDomain (cfg : Names) (key : DomainKey) (prependRDLength compress : Bool) (out : Out) :
    Option Out :=
  let cached := if compress then out.findCachedDomainOffset key else 0
  if cached ≠ 0 then
    (if prependRDLength then out.write16 2 else out).writePointer cached
  else
    (buildDomain cfg key).bind fun name =>
      let out := if prependRDLength then out.write16 name.length else out
      (out.addDomainCacheItem key out.offset).bind fun out => out.writeRRDomain name

end Out

def writeMDNSHostDomain (cfg : Names) (prependRDLength : Bool) (out : Out) : Option Out :=
  out.writeDomain cfg .host prependRDLength true

def writeMDNSServiceDomain (cfg : Names) (i : Nat) (includeName prependRDLength : Bool)
    (out : Out) : Option Out :=
  out.writeDomain cfg (.service i includeName) prependRDLength true

/-! ## The labels of a name -/

def domainLabels (cfg : Names) : DomainKey → List (List UInt8)
  | .host => [labelText cfg.hostname false, scpcLocal]
  | .service i includeName =>
    match cfg.services[i]? with
    | none => []
    | some s => (if includeName then [labelText s.name false] else []) ++
        [labelText s.service true, labelText s.protocol true, scpcLocal]

theorem labelText_local : labelText (some scpcLocal) false = scpcLocal := by decide

theorem addLabel_some {name name' : List UInt8} {label : Option (List UInt8)} {underline : Bool}
    (h : addLabel name label underline = some name') :
    name' = name ++ encodeLabels [labelText label underline] ∧
      (labelText label underline).length ≤ 63 ∧ name'.length ≤ domainMaxLength := by
  unfold addLabel at h
  dsimp only at h
  split at h
  · next hfit =>
      obtain rfl := some.inj h
      refine ⟨by simp [encodeLabels], hfit.1, ?_⟩
      have hroom := hfit.2
      rw [length_append, length_cons]
      omega
  · cases h

theorem buildDomain_some {cfg : Names} {key : DomainKey} {name : List UInt8}
    (h : buildDomain cfg key = some name) :
    name = encodeLabels (domainLabels cfg key) ++ [0] ∧
      (∀ label ∈ domainLabels cfg key, label.length ≤ 63) ∧ name.length ≤ domainMaxLength := by
  cases key with
  | host =>
    obtain ⟨hostname, services⟩ := cfg
    cases hostname with
    | none => cases h
    | some hostname =>
      change (if cstr hostname = [] then none else _) = some name at h
      split at h
      · cases h
      · obtain ⟨name1, h1, h⟩ := bind_eq_some_iff.mp h
        obtain ⟨name2, h2, h⟩ := bind_eq_some_iff.mp h
        obtain ⟨rfl, hlen1, -⟩ := addLabel_some h1
        obtain ⟨rfl, hlen2, -⟩ := addLabel_some h2
        obtain ⟨rfl, -, hlen⟩ := addLabel_some h
        rw [labelText_local] at hlen ⊢
        refine ⟨by simp [domainLabels, encodeLabels, labelText], ?_, hlen⟩
        simp only [domainLabels, forall_mem_cons, not_mem_nil, false_imp_iff,
          implies_true, and_true]
        exact ⟨hlen1, by decide⟩
  | service i includeName =>
    change cfg.services[i]?.bind _ = some name at h
    obtain ⟨s, hs, h⟩ := bind_eq_some_iff.mp h
    obtain ⟨name1, h1, h⟩ := bind_eq_some_iff.mp h
    obtain ⟨name2, h2, h⟩ := bind_eq_some_iff.mp h
    obtain ⟨name3, h3, h⟩ := bind_eq_some_iff.mp h
    obtain ⟨name4, h4, h⟩ := bind_eq_some_iff.mp h
    obtain ⟨rfl, hlen2, -⟩ := addLabel_some h2
    obtain ⟨rfl, hlen3, -⟩ := addLabel_some h3
    obtain ⟨rfl, hlen4, -⟩ := addLabel_some h4
    obtain ⟨rfl, -, hlen⟩ := addLabel_some h
    have hfirst : name1 = encodeLabels (if includeName then [labelText s.name false] else []) ∧
        ∀ label ∈ (if includeName then [labelText s.name false] else []), label.length ≤ 63 := by
      cases includeName with
      | false => exact ⟨(some.inj h1).symm, by simp⟩
      | true =>
        obtain ⟨rfl, hlen1, -⟩ := addLabel_some h1
        exact ⟨by simp, by simpa using hlen1⟩
    have hlabels : domainLabels cfg (.service i includeName) =
        (if includeName then [labelText s.name false] else []) ++
          [labelText s.service true, labelText s.protocol true, scpcLocal] := by
      simp only [domainLabels, hs]
    rw [labelText_local] at hlen ⊢
    rw [hlabels]
    refine ⟨?_, ?_, hlen⟩
    · rw [hfirst.1]
      simp [encodeLabels, labelText]
    · intro label hmem
      rcases mem_append.mp hmem with hmem | hmem
      · exact hfirst.2 label hmem
      · simp only [mem_cons, not_mem_nil, or_false] at hmem
        rcases hmem with rfl | rfl | rfl
        · exact hlen2
        · exact hlen3
        · decide

/-! ## Messages -/

/-- A step of composing a message: a domain, or other bytes. -/
inductive NameOp where
  | other (bytes : List UInt8)
  | domain (key : DomainKey) (prependRDLength compress : Bool)

def writeOp (cfg : Names) : NameOp → Option Out → Option Out
  | .other bytes, out => out.map (·.append bytes)
  | .domain key prependRDLength compress, out =>
    out.bind (Out.writeDomain cfg key prependRDLength compress)

/-- The steps that are read back.  A message has less than 2¹⁶ bytes, as a datagram has; a
domain that is written out has no empty label, and one that is pointed to stands where 14 bits
reach. -/
def OpFits (cfg : Names) (op : NameOp) (out : Option Out) : Prop :=
  match out, op with
  | none, _ => True
  | some out, .other bytes => out.bytes.length + bytes.length < 65536
  | some out, .domain key _ compress =>
    out.bytes.length + 2 + domainMaxLength < 65536 ∧
      if (if compress then out.findCachedDomainOffset key else 0) ≠ 0 then
        out.findCachedDomainOffset key < 16384
      else ∀ label ∈ domainLabels cfg key, label ≠ []

instance opFitsDecidable (cfg : Names) : ∀ op out, Decidable (OpFits cfg op out)
  | _, none => isTrue trivial
  | .other bytes, some out =>
    inferInstanceAs (Decidable (out.bytes.length + bytes.length < 65536))
  | .domain key _ compress, some out =>
    inferInstanceAs (Decidable (out.bytes.length + 2 + domainMaxLength < 65536 ∧
      if (if compress then out.findCachedDomainOffset key else 0) ≠ 0 then
        out.findCachedDomainOffset key < 16384
      else ∀ label ∈ domainLabels cfg key, label ≠ []))

def lengthField (prependRDLength : Bool) : Nat := if prependRDLength then 2 else 0

/-- **What names are for.**  Every domain of a message is read back where it was written, and
the reader then stands behind what was written for it. -/
def NamesReadBack (cfg : Names) (ops : List NameOp) : Prop :=
  ∀ front key prependRDLength compress back before done out,
    ops = front ++ .domain key prependRDLength compress :: back →
    after (writeOp cfg) front (some Out.init) = some before →
    before.writeDomain cfg key prependRDLength compress = some done →
    after (writeOp cfg) back (some done) = some out →
    ∀ rx : Rx, rx.buf = out.bytes →
      rx.offset = before.bytes.length + lengthField prependRDLength →
      (readRRDomain rx).ok = true ∧ some (readRRDomain rx).name = buildDomain cfg key ∧
        (readRRDomain rx).rx.offset = done.bytes.length

/-- The offset counts the bytes, and each cached domain stands where its item says. -/
structure Out.Inv (cfg : Names) (out : Out) : Prop where
  offset : out.offset = out.bytes.length
  short : out.bytes.length < 65536
  cached : ∀ item ∈ out.cache, ∃ name, buildDomain cfg item.1 = some name ∧
    Labels (domainLabels cfg item.1) ∧ item.2 < out.bytes.length ∧
    name <+: out.bytes.drop item.2

theorem Out.Inv.init (cfg : Names) : Out.Inv cfg Out.init where
  offset := rfl
  short := by decide
  cached := by simp [Out.init]

variable {cfg : Names} {out : Out}

theorem Out.Inv.append (h : out.Inv cfg) {bytes : List UInt8}
    (hshort : out.bytes.length + bytes.length < 65536) : (out.append bytes).Inv cfg where
  offset := by
    show (out.offset + bytes.length) % 65536 = (out.bytes ++ bytes).length
    rw [h.offset, length_append, Nat.mod_eq_of_lt hshort]
  short := by
    show (out.bytes ++ bytes).length < 65536
    rw [length_append]
    exact hshort
  cached item hitem := by
    obtain ⟨name, hname, hlabels, hlt, hplace⟩ := h.cached item hitem
    refine ⟨name, hname, hlabels, ?_, ?_⟩
    · show item.2 < (out.bytes ++ bytes).length
      rw [length_append]
      omega
    · show name <+: (out.bytes ++ bytes).drop item.2
      rw [drop_append_of_le_length (Nat.le_of_lt hlt)]
      exact hplace.trans (prefix_append _ _)

theorem Out.find_cached {key : DomainKey} (h : out.findCachedDomainOffset key ≠ 0) :
    (key, out.findCachedDomainOffset key) ∈ out.cache := by
  unfold findCachedDomainOffset at h ⊢
  cases hfind : out.cache.find? (fun item => decide (item.1 = key)) with
  | none =>
    grind
  | some item =>
    have hkey : item.1 = key := by simpa using find?_some hfind
    have hmem := mem_of_find?_eq_some hfind
    rw [← hkey]
    exact hmem

theorem pointer_bytes {pos : Nat} (h : pos < 16384) :
    isLabel (ofNat ((pos >>> 8) ||| 0xC0)) = false ∧
      ((ofNat ((pos >>> 8) ||| 0xC0)) &&& 0x3F).toNat * 256 +
        (ofNat (pos &&& 0xFF)).toNat = pos := by
  have hhigh : ∀ a < 64, isLabel (ofNat (a ||| 0xC0)) = false ∧
      ((ofNat (a ||| 0xC0)) &&& 0x3F).toNat = a := by decide
  have hshift : pos >>> 8 = pos / 256 := Nat.shiftRight_eq_div_pow pos 8
  have hmask : pos &&& 0xFF = pos % 256 := Nat.and_two_pow_sub_one_eq_mod pos 8
  have hlow : (ofNat (pos % 256)).toNat = pos % 256 :=
    UInt8.toNat_ofNat_of_lt' (Nat.mod_lt _ (by decide))
  obtain ⟨hlabel, hsix⟩ := hhigh (pos / 256) (by omega)
  rw [hshift, hmask, hlow, hsix]
  exact ⟨hlabel, by omega⟩

/-- Where a domain is read back: from `start` on, up to the end of what was written. -/
def ReadsBack (cfg : Names) (key : DomainKey) (start : Nat) (out : Out) : Prop :=
  ∀ (rx : Rx) (more : List UInt8), rx.buf = out.bytes ++ more → rx.offset = start →
    (readRRDomain rx).ok = true ∧ some (readRRDomain rx).name = buildDomain cfg key ∧
      (readRRDomain rx).rx.offset = out.bytes.length

theorem Out.prepend (h : out.Inv cfg)
    (hshort : out.bytes.length + 2 < 65536) (prependRDLength : Bool) (value : Nat) :
    (if prependRDLength then out.write16 value else out).Inv cfg ∧
      (if prependRDLength then out.write16 value else out).bytes.length =
        out.bytes.length + lengthField prependRDLength ∧
      out.bytes <+: (if prependRDLength then out.write16 value else out).bytes ∧
      (if prependRDLength then out.write16 value else out).cache = out.cache := by
  cases prependRDLength with
  | false => exact ⟨h, rfl, prefix_refl _, rfl⟩
  | true => exact ⟨h.append hshort, length_append, prefix_append _ _, rfl⟩

theorem Out.writePointer_spec {out' : Out} {key : DomainKey} {cached : Nat}
    (h : out.Inv cfg) (hshort : out.bytes.length + 2 < 65536) (hreach : cached < 16384)
    (hitem : (key, cached) ∈ out.cache) (hwrite : out.writePointer cached = some out') :
    out'.Inv cfg ∧ out.bytes <+: out'.bytes ∧ ReadsBack cfg key out.bytes.length out' := by
  unfold writePointer at hwrite
  split at hwrite
  · obtain rfl := some.inj hwrite
    have hbytes : ((out.write8 ((cached >>> 8) ||| 0xC0)).write8 (cached &&& 0xFF)).bytes =
        out.bytes ++ [ofNat ((cached >>> 8) ||| 0xC0), ofNat (cached &&& 0xFF)] := by
      simp [write8, append]
    have hfirst : (out.write8 ((cached >>> 8) ||| 0xC0)).bytes.length = out.bytes.length + 1 :=
      length_append
    have hinv : ((out.write8 ((cached >>> 8) ||| 0xC0)).write8 (cached &&& 0xFF)).Inv cfg := by
      refine (h.append ?_).append ?_
      · grind
      · show (out.write8 ((cached >>> 8) ||| 0xC0)).bytes.length + 1 < 65536
        omega
    refine ⟨hinv, hbytes ▸ prefix_append _ _, fun rx more hbuf hoffset => ?_⟩
    obtain ⟨name, hname, hlabels, hlt, hplace⟩ := h.cached _ hitem
    obtain ⟨rfl, -, hlen⟩ := buildDomain_some hname
    obtain ⟨hptr, hpos⟩ := pointer_bytes hreach
    obtain ⟨rest, hrest⟩ := hplace
    have hback : rx.buf.drop cached =
        encodeLabels (domainLabels cfg key) ++ (0 : UInt8) :: (rest ++ (
          [ofNat ((cached >>> 8) ||| 0xC0), ofNat (cached &&& 0xFF)] ++ more)) := by
      rw [hbuf, hbytes, append_assoc, drop_append_of_le_length (Nat.le_of_lt hlt),
        ← hrest]
      simp
    have hthere : rx.rest = ofNat ((cached >>> 8) ||| 0xC0) ::
        ofNat (cached &&& 0xFF) :: more := by
      rw [Rx.rest, hoffset, hbuf, hbytes, append_assoc, drop_left]
      rfl
    have hle : cached ≤ rx.buf.length := by grind
    rw [length_append, length_singleton] at hlen
    obtain ⟨hok, hread, hend⟩ :=
      readRRDomain_pointer hlabels hthere hptr hpos hle hback (Nat.lt_of_succ_le hlen)
    refine ⟨hok, by rw [hread, hname], ?_⟩
    rw [hend, hoffset, hbytes, length_append]
    rfl
  · cases hwrite

theorem Out.writeRRDomain_spec {out1 out' : Out} {key : DomainKey}
    {name : List UInt8} (h : out.Inv cfg)
    (hshort : out.bytes.length + domainMaxLength < 65536)
    (hname : buildDomain cfg key = some name) (hne : ∀ label ∈ domainLabels cfg key, label ≠ [])
    (hcache : out.addDomainCacheItem key out.offset = some out1)
    (hwrite : out1.writeRRDomain name = some out') :
    out'.Inv cfg ∧ out.bytes <+: out'.bytes ∧ ReadsBack cfg key out.bytes.length out' := by
  obtain ⟨heq, h63, hlen⟩ := buildDomain_some hname
  have hlabels : Labels (domainLabels cfg key) := fun label hmem => ⟨hne label hmem, h63 label hmem⟩
  unfold addDomainCacheItem at hcache
  split at hcache
  · cases hcache
  · obtain rfl := some.inj hcache
    unfold writeRRDomain at hwrite
    split at hwrite
    · cases hwrite
    · next hpos =>
        obtain rfl := some.inj hwrite
        have hfit : out.bytes.length + name.length < 65536 := by omega
        have happend := h.append hfit
        refine ⟨⟨happend.offset, happend.short, ?_⟩, prefix_append _ _, ?_⟩
        · intro item hitem
          rcases mem_cons.mp hitem with rfl | hitem
          · refine ⟨name, hname, hlabels, ?_, ?_⟩
            · show out.offset < (out.bytes ++ name).length
              rw [h.offset, length_append]
              omega
            · show name <+: (out.bytes ++ name).drop out.offset
              exact ⟨[], by rw [h.offset, drop_left, append_nil]⟩
          · exact happend.cached item hitem
        · intro rx more hbuf hoffset
          have hbytes :
              rx.buf = out.bytes ++ (encodeLabels (domainLabels cfg key) ++ 0 :: more) := by
            rw [hbuf]
            show out.bytes ++ name ++ more = _
            rw [heq]
            simp
          have hrest : rx.rest = encodeLabels (domainLabels cfg key) ++ 0 :: more := by
            rw [Rx.rest, hoffset, hbytes, drop_left]
          have hroom : (encodeLabels (domainLabels cfg key)).length < domainMaxLength := by grind
          obtain ⟨hok, hread, hend⟩ := @readRRDomainLoop_encoded domainMaxRedirection
            (domainLabels cfg key) hlabels rx more hrest [] 0 0 (by simpa using hroom)
          refine ⟨hok, ?_, ?_⟩
          · rw [hname, heq]
            exact congrArg some hread
          · show (readRRDomainLoop (domainMaxRedirection + 1) rx [] 0 0).rx.offset =
              (out.bytes ++ name).length
            rw [hend, hoffset, heq, length_append, length_append]
            rfl

/-- **A domain that fits is read back** where it was written. -/
theorem Out.writeDomain_spec {out' : Out} {key : DomainKey}
    {prependRDLength compress : Bool} (h : out.Inv cfg)
    (hfits : OpFits cfg (.domain key prependRDLength compress) (some out))
    (hwrite : out.writeDomain cfg key prependRDLength compress = some out') :
    out'.Inv cfg ∧ out.bytes <+: out'.bytes ∧
      ReadsBack cfg key (out.bytes.length + lengthField prependRDLength) out' := by
  obtain ⟨hshort, hfits⟩ := hfits
  unfold domainMaxLength at hshort
  unfold writeDomain at hwrite
  by_cases hcached : (if compress then out.findCachedDomainOffset key else 0) ≠ 0
  · simp only [if_pos hcached] at hfits hwrite
    have hcompress : compress = true := by
      cases compress with
      | false => exact absurd rfl hcached
      | true => rfl
    subst hcompress
    obtain ⟨hinv, hlength, hpre, hsame⟩ := Out.prepend h (by omega) prependRDLength 2
    have hitem := Out.find_cached hcached
    simp only [if_true] at hwrite hitem
    have hbound : lengthField prependRDLength ≤ 2 := by cases prependRDLength <;> decide
    obtain ⟨hinv', hpre', hback⟩ :=
      Out.writePointer_spec hinv (by omega) hfits (hsame ▸ hitem) hwrite
    exact ⟨hinv', hpre.trans hpre', hlength ▸ hback⟩
  · simp only [if_neg hcached] at hfits hwrite
    obtain ⟨name, hname, hwrite⟩ := bind_eq_some_iff.mp hwrite
    obtain ⟨hinv, hlength, hpre, -⟩ := Out.prepend h (by omega) prependRDLength name.length
    obtain ⟨out1, hcache, hwrite⟩ := bind_eq_some_iff.mp hwrite
    have hbound : lengthField prependRDLength ≤ 2 := by cases prependRDLength <;> decide
    obtain ⟨hinv', hpre', hback⟩ := Out.writeRRDomain_spec hinv
      (by unfold domainMaxLength; omega) hname hfits hcache hwrite
    exact ⟨hinv', hpre.trans hpre', hlength ▸ hback⟩

theorem writeOp_inv (op : NameOp) (out : Option Out)
    (h : ∀ o, out = some o → o.Inv cfg) (hfits : OpFits cfg op out) :
    ∀ o, writeOp cfg op out = some o → o.Inv cfg := by
  intro o ho
  cases out with
  | none => cases op <;> cases ho
  | some out =>
    cases op with
    | other bytes =>
      obtain rfl := some.inj ho
      exact (h out rfl).append hfits
    | domain key prependRDLength compress =>
      exact (Out.writeDomain_spec (h out rfl) hfits ho).1

theorem writeOp_bytes {op : NameOp} {o : Out}
    (h : out.Inv cfg) (hfits : OpFits cfg op (some out))
    (ho : writeOp cfg op (some out) = some o) : out.bytes <+: o.bytes := by
  cases op with
  | other bytes =>
    obtain rfl := some.inj ho
    exact prefix_append _ _
  | domain key prependRDLength compress => exact (Out.writeDomain_spec h hfits ho).2.1

theorem after_none (ops : List NameOp) : after (writeOp cfg) ops none = none :=
  after_of_fixed fun op _ => by cases op <;> rfl

theorem after_bytes {ops : List NameOp} {o : Out} (h : out.Inv cfg)
    (hfits : AllFit (writeOp cfg) (OpFits cfg) ops (some out))
    (ho : after (writeOp cfg) ops (some out) = some o) : out.bytes <+: o.bytes := by
  induction ops generalizing out with
  | nil =>
    obtain rfl := some.inj ho
    exact prefix_refl _
  | cons op rest ih =>
    rw [Runs.after] at ho
    cases hop : writeOp cfg op (some out) with
    | none =>
      rw [hop, after_none] at ho
      cases ho
    | some out1 =>
      rw [hop] at ho
      have hinv := writeOp_inv op (some out) (fun _ heq => some.inj heq ▸ h) hfits.1
        out1 hop
      exact (writeOp_bytes h hfits.1 hop).trans (ih hinv (hop ▸ hfits.2) ho)

theorem names_readBack {ops : List NameOp}
    (hfits : AllFit (writeOp cfg) (OpFits cfg) ops (some Out.init)) : NamesReadBack cfg ops := by
  rintro front key prependRDLength compress back before done out rfl hbefore hdone hout rx hbuf
    hoffset
  obtain ⟨hfront, hfit, hback⟩ := allFit_append.mp hfits
  have hstart : ∀ o, some Out.init = some o → o.Inv cfg := fun _ heq =>
    some.inj heq ▸ Out.Inv.init cfg
  have hinv : before.Inv cfg :=
    @invariant _ _ _ _ (fun out => ∀ o, out = some o → Out.Inv cfg o) writeOp_inv _ _ hstart
      hfront before hbefore
  rw [hbefore] at hfit hback
  obtain ⟨hinv', -, hread⟩ := Out.writeDomain_spec hinv hfit hdone
  have hstep : writeOp cfg (.domain key prependRDLength compress) (some before) = some done := hdone
  rw [hstep] at hback
  obtain ⟨more, hmore⟩ := after_bytes hinv' hback hout
  exact hread rx more (hbuf.trans hmore.symm) hoffset

/-- **The domain codec.**  From any place of any packet the reader ends, with at most six
pointers followed, inside its buffer and behind the name where it was read; and every domain of
a message whose steps fit is read back. -/
theorem domain_codec (rx : Rx) (cfg : Names) (ops : List NameOp) :
    ((readRRDomain rx).jumps ≤ domainMaxRedirection ∧
      (readRRDomain rx).high ≤ domainMaxLength ∧ (readRRDomain rx).rx.buf = rx.buf ∧
      ((readRRDomain rx).ok = true →
        (readRRDomain rx).rx.offset = rx.offset + nameEnd rx.rest)) ∧
    (AllFit (writeOp cfg) (OpFits cfg) ops (some Out.init) → NamesReadBack cfg ops) :=
  ⟨readRRDomain_bounds rx, names_readBack⟩

def sampleNames (name : Option (List UInt8)) : Names :=
  ⟨some [101, 115, 112], [⟨name, some [104, 116, 116, 112], some [116, 99, 112], 80, [], [], 0⟩]⟩

def sampleOps : List NameOp :=
  [.other (replicate 12 0), .domain .host false true, .domain .host true true,
    .domain (.service 0 true) false true]

theorem domain_codec_sample : NamesReadBack (sampleNames (some [101, 115, 112])) sampleOps :=
  (domain_codec ⟨[], 0, Nat.le_refl 0⟩ _ _).2 (by decide)

/-- A service without a name is written with an empty label in front, and read as an empty
name. -/
theorem not_domain_codec : ¬∀ cfg ops, NamesReadBack cfg ops := by
  intro h
  have hread := h (sampleNames none)
    [.other (List.replicate 12 0), .domain (.service 0 true) false true]
    [.other (List.replicate 12 0)] (.service 0 true) false true [] _ _ _ rfl rfl rfl rfl
    ⟨List.replicate 12 0 ++ [0, 5, 95, 104, 116, 116, 112, 4, 95, 116, 99, 112, 5, 108, 111, 99,
      97, 108, 0], 12, by decide⟩ rfl rfl
  have hname := hread.2.1
  unfold readRRDomain at hname
  rw [readRRDomainLoop_zero rfl (by decide)] at hname
  revert hname
  decide

end Mdns
