import RalioFirmware.Mdns.Answers
import RalioFirmware.Mdns.Ttl

/-!
# The cache of the service queries

What has been answered to a service query is kept with it: for each instance of the service its
name, its host and port, its texts and the addresses of the host, each with a time to live of
its own.  A poll asks for what is about to end and removes what has ended; with a name goes the
whole answer, and with a host go its addresses.

The handlers of the records are those of the answers to our own queries, with the clock that is
left out there.  The application is told about each change, which is left out here too.  A poll
reads the clock once.
-/

namespace Mdns.Cache

open Word

/-! ## The data -/

/-- `stcIP4Address`. -/
structure CachedAddress where
  address : IPAddress
  ttl : TTL

/-- `stcAnswer`, without the texts that are made for the application. -/
structure CachedAnswer where
  serviceDomain : List UInt8
  ttlServiceDomain : TTL
  hostDomain : List UInt8
  port : Nat
  ttlHostDomainAndPort : TTL
  txts : List ServiceTxt
  ttlTxts : TTL
  ip4Addresses : List CachedAddress
  contentFlags : BitVec 32

/-- `stcMDNSServiceQuery`. -/
structure ServiceQuery where
  serviceTypeDomain : List UInt8
  legacyQuery : Bool
  sentCount : Nat
  resendTimeout : PolledTimeout
  awaitingAnswers : Bool
  answers : List CachedAnswer

inductive Question
  | serviceDomain
  | hostDomainAndPort
  | txts
  | ip4Addresses

/-- Which queries of a poll are sent: the one of the service query itself, and those for its
answers, by their places. -/
structure Sent where
  resend : Bool
  answers : Nat → Question → Bool

/-! ## A poll -/

namespace CachedAnswer

/-- The part of `_checkServiceQueryCache` for the host and the port. -/
def checkHostDomainAndPort (sent : Bool) (now : Nat) (a : CachedAnswer) : Bool × CachedAnswer :=
  match a.ttlHostDomainAndPort.due now with
  | .nothing => (true, a)
  | .update =>
    let r := a.ttlHostDomainAndPort.update sent now
    (r.1, { a with ttlHostDomainAndPort := r.2 })
  | .deletion => (true, { a with
      hostDomain := []
      port := 0
      ttlHostDomainAndPort := a.ttlHostDomainAndPort.set 0 now
      ip4Addresses := []
      contentFlags := a.contentFlags &&&
        ~~~(serviceQueryAnswerHostDomainAndPort ||| serviceQueryAnswerIP4Address) })

def checkTxts (sent : Bool) (now : Nat) (a : CachedAnswer) : Bool × CachedAnswer :=
  match a.ttlTxts.due now with
  | .nothing => (true, a)
  | .update =>
    let r := a.ttlTxts.update sent now
    (r.1, { a with ttlTxts := r.2 })
  | .deletion => (true, { a with
      txts := []
      ttlTxts := a.ttlTxts.set 0 now
      contentFlags := a.contentFlags &&& ~~~serviceQueryAnswerTxts })

def addressLoop (sent : Bool) (now : Nat) : Bool → List CachedAddress →
    Bool × List CachedAddress
  | _, [] => (true, [])
  | updateQuerySent, i :: rest =>
    match i.ttl.due now with
    | .nothing =>
      let r := addressLoop sent now updateQuerySent rest
      (r.1, i :: r.2)
    | .update =>
      if updateQuerySent || sent then
        let r := addressLoop sent now true rest
        (r.1, { i with ttl := (i.ttl.restart now).2 } :: r.2)
      else (false, i :: rest)
    | .deletion => addressLoop sent now updateQuerySent rest

def checkIP4Addresses (sent : Bool) (now : Nat) (a : CachedAnswer) : Bool × CachedAnswer :=
  let r := addressLoop sent now false a.ip4Addresses
  (r.1, { a with
    ip4Addresses := r.2
    contentFlags :=
      if r.2.isEmpty && !a.ip4Addresses.isEmpty then
        a.contentFlags &&& ~~~serviceQueryAnswerIP4Address
      else a.contentFlags })

/-- The components of the second and the third level, one after the other. -/
def checkComponents (sent : Question → Bool) (now : Nat) (a : CachedAnswer) :
    Bool × CachedAnswer :=
  match a.checkHostDomainAndPort (sent .hostDomainAndPort) now with
  | (false, a) => (false, a)
  | (true, a) =>
    match a.checkTxts (sent .txts) now with
    | (false, a) => (false, a)
    | (true, a) => a.checkIP4Addresses (sent .ip4Addresses) now

def check (sent : Question → Bool) (now : Nat) (a : CachedAnswer) : Bool × Option CachedAnswer :=
  match a.ttlServiceDomain.due now with
  | .nothing =>
    let r := a.checkComponents sent now
    (r.1, some r.2)
  | .update =>
    match a.ttlServiceDomain.update (sent .serviceDomain) now with
    | (false, c) => (false, some { a with ttlServiceDomain := c })
    | (true, c) =>
      let r := { a with ttlServiceDomain := c }.checkComponents sent now
      (r.1, some r.2)
  | .deletion => (true, none)

end CachedAnswer

/-- The loop over the answers, which ends where one is removed. -/
def checkAnswers (now : Nat) : (Nat → Question → Bool) → List CachedAnswer →
    Bool × List CachedAnswer
  | _, [] => (true, [])
  | sent, a :: rest =>
    match a.check (sent 0) now with
    | (ok, none) => (ok, rest)
    | (false, some a) => (false, a :: rest)
    | (true, some a) =>
      let r := checkAnswers now (fun i => sent (i + 1)) rest
      (r.1, a :: r.2)

namespace ServiceQuery

def dynamicQueryResendCount : Nat := 5
def dynamicQueryResendDelay : Nat := 5000

/-- The query of a service query is sent again, if it is not yet done. -/
def resend (sent : Bool) (now : Nat) (q : ServiceQuery) : Bool × ServiceQuery :=
  if !q.legacyQuery && dynamicQueryResendCount > q.sentCount &&
      q.resendTimeout.expiredOneShot now then
    if sent then
      let count := (q.sentCount + 1) % 256
      let delay := if dynamicQueryResendCount > count then dynamicQueryResendDelay * (count - 1)
        else TTL.neverExpires
      (true, { q with
        sentCount := count
        resendTimeout := q.resendTimeout.resetTo .millis delay now })
    else (false, q)
  else (true, q)

/-- A turn of the loop of `_checkServiceQueryCache`. -/
def check (sent : Sent) (now : Nat) (q : ServiceQuery) : Bool × ServiceQuery :=
  match q.resend sent.resend now with
  | (false, q) => (false, q)
  | (true, q) =>
    if q.awaitingAnswers then
      let r := checkAnswers now sent.answers q.answers
      (r.1, { q with answers := r.2 })
    else (true, q)

end ServiceQuery

def checkServiceQueryCache (now : Nat) : (Nat → Sent) → List ServiceQuery →
    Bool × List ServiceQuery
  | _, [] => (true, [])
  | sent, q :: rest =>
    match q.check (sent 0) now with
    | (false, q) => (false, q :: rest)
    | (true, q) =>
      let r := checkServiceQueryCache now (fun i => sent (i + 1)) rest
      (r.1, q :: r.2)

/-! ## What is received -/

def CachedAnswer.new (serviceDomain : List UInt8) (ttl : UInt32) (now : Nat) : CachedAnswer where
  serviceDomain := serviceDomain
  ttlServiceDomain := (TTL.new now).set ttl now
  hostDomain := []
  port := 0
  ttlHostDomainAndPort := .new now
  txts := []
  ttlTxts := .new now
  ip4Addresses := []
  contentFlags := serviceQueryAnswerServiceDomain

/-- A turn of the loop of `_processPTRAnswer`. -/
def ServiceQuery.receivePTR (target : List UInt8) (ttl : UInt32) (now : Nat) (q : ServiceQuery) :
    ServiceQuery :=
  if q.answers.any fun a => domainEq a.serviceDomain target then
    { q with
      answers := changeFirst (fun a => domainEq a.serviceDomain target)
        (fun a => { a with ttlServiceDomain := a.ttlServiceDomain.receive ttl now }) q.answers }
  else if ttl.toNat ≠ 0 then { q with answers := .new target ttl now :: q.answers }
  else q

def processPTRAnswer (domain target : List UInt8) (ttl : UInt32) (now : Nat)
    (qs : List ServiceQuery) : List ServiceQuery :=
  qs.map fun q =>
    if domainEq domain q.serviceTypeDomain && q.awaitingAnswers then q.receivePTR target ttl now
    else q

/-- A turn of the loop of `_processSRVAnswer`, where there is an answer. -/
def CachedAnswer.receiveSRV (host : List UInt8) (port : Nat) (ttl : UInt32) (now : Nat)
    (a : CachedAnswer) : CachedAnswer :=
  let b := { a with ttlHostDomainAndPort := a.ttlHostDomainAndPort.receive ttl now }
  if ttl.toNat ≠ 0 && (!domainEq a.hostDomain host || a.port ≠ port) then
    { b with
      hostDomain := host
      port := port
      contentFlags := a.contentFlags ||| serviceQueryAnswerHostDomainAndPort }
  else b

/-- A turn of the loop of `_processTXTAnswer`, where there is an answer.  To assign items turns
their order round. -/
def CachedAnswer.receiveTXT (txts : List ServiceTxt) (ttl : UInt32) (now : Nat)
    (a : CachedAnswer) : CachedAnswer :=
  let b := { a with ttlTxts := a.ttlTxts.receive ttl now }
  if ttl.toNat ≠ 0 && !txtsEq a.txts txts then
    { b with
      txts := txts.reverse
      contentFlags := a.contentFlags ||| serviceQueryAnswerTxts }
  else b

/-- A turn of the loop of `_processAAnswer`, where there is an answer. -/
def CachedAnswer.receiveA (address : IPAddress) (ttl : UInt32) (now : Nat) (a : CachedAnswer) :
    CachedAnswer :=
  if a.ip4Addresses.any fun i => decide (i.address.bytes = address.bytes) then
    { a with
      ip4Addresses := changeFirst (fun i => decide (i.address.bytes = address.bytes))
        (fun i => { i with ttl := i.ttl.receive ttl now }) a.ip4Addresses }
  else if ttl.toNat ≠ 0 then
    { a with
      ip4Addresses := ⟨address, (TTL.new now).set ttl now⟩ :: a.ip4Addresses
      contentFlags := a.contentFlags ||| serviceQueryAnswerIP4Address }
  else a

/-- The first answer that is found, in each of the service queries. -/
def onAnswers (found : CachedAnswer → Bool) (change : CachedAnswer → CachedAnswer)
    (qs : List ServiceQuery) : List ServiceQuery :=
  qs.map fun q => { q with answers := changeFirst found change q.answers }

def processSRVAnswer (domain host : List UInt8) (port : Nat) (ttl : UInt32) (now : Nat)
    (qs : List ServiceQuery) : List ServiceQuery :=
  onAnswers (fun a => domainEq a.serviceDomain domain) (fun a => a.receiveSRV host port ttl now) qs

def processTXTAnswer (domain : List UInt8) (txts : List ServiceTxt) (ttl : UInt32) (now : Nat)
    (qs : List ServiceQuery) : List ServiceQuery :=
  onAnswers (fun a => domainEq a.serviceDomain domain) (fun a => a.receiveTXT txts ttl now) qs

def processAAnswer (domain : List UInt8) (address : IPAddress) (ttl : UInt32) (now : Nat)
    (qs : List ServiceQuery) : List ServiceQuery :=
  onAnswers (fun a => domainEq a.hostDomain domain) (fun a => a.receiveA address ttl now) qs

/-! ## Runs -/

/-- What happens to the cache: polls, records that are received, and service queries that are
installed, end or are removed. -/
inductive CacheEvent
  | poll (sent : Nat → Sent)
  | ptr (domain target : List UInt8) (ttl : UInt32)
  | srv (domain host : List UInt8) (port : Nat) (ttl : UInt32)
  | txt (domain : List UInt8) (txts : List ServiceTxt) (ttl : UInt32)
  | a (domain : List UInt8) (address : IPAddress) (ttl : UInt32)
  | install (serviceTypeDomain : List UInt8) (legacyQuery : Bool)
  | stopAwaiting (i : Nat)
  | remove (i : Nat)

def ServiceQuery.installed (serviceTypeDomain : List UInt8) (legacyQuery : Bool) (now : Nat) :
    ServiceQuery where
  serviceTypeDomain := serviceTypeDomain
  legacyQuery := legacyQuery
  sentCount := if legacyQuery then 0 else 1
  resendTimeout :=
    let t := PolledTimeout.create .millis TTL.neverExpires now
    if legacyQuery then t else t.resetTo .millis dynamicQueryResendDelay now
  awaitingAnswers := true
  answers := []

def CacheEvent.apply (now : Nat) (qs : List ServiceQuery) : CacheEvent → List ServiceQuery
  | .poll sent => (checkServiceQueryCache now sent qs).2
  | .ptr domain target ttl => processPTRAnswer domain target ttl now qs
  | .srv domain host port ttl => processSRVAnswer domain host port ttl now qs
  | .txt domain txts ttl => processTXTAnswer domain txts ttl now qs
  | .a domain address ttl => processAAnswer domain address ttl now qs
  | .install domain legacyQuery => .installed domain legacyQuery now :: qs
  | .stopAwaiting i => qs.modify i fun q => { q with awaitingAnswers := false }
  | .remove i => qs.eraseIdx i

/-- A record that is received has one of these times to live. -/
def CacheEvent.Carries (P : UInt32 → Prop) : CacheEvent → Prop
  | .ptr _ _ ttl => P ttl
  | .srv _ _ _ ttl => P ttl
  | .txt _ _ ttl => P ttl
  | .a _ _ ttl => P ttl
  | _ => True

/-- What the cache may be at a time, where records carry some times to live. -/
inductive CacheReach (P : UInt32 → Prop) : Nat → List ServiceQuery → Prop
  | start (now : Nat) : CacheReach P now []
  | step {last now : Nat} {qs : List ServiceQuery} (e : CacheEvent) :
      CacheReach P last qs → last ≤ now → e.Carries P → CacheReach P now (e.apply now qs)

end Mdns.Cache
