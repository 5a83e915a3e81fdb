import Mathlib.Data.List.Forall2
import RalioFirmware.Mdns.Cache

/-!
# The life of what is cached

A poll leaves a component of an answer as it is, or asks for it, or removes it with what depends
on it.  `cache_lives_iff` says that nothing is asked for or removed too early, and that no
timeout wraps, just where no time to live is so long that the first timeout does.
-/

namespace Mdns.Cache

open Word List

/-! ## What a poll may do -/

inductive Thinned {α : Type} (Goes : α → α → Prop) (Gone : α → Prop) : List α → List α → Prop
  | nil : Thinned Goes Gone [] []
  | keep {a b : α} {l m : List α} :
      Goes a b → Thinned Goes Gone l m → Thinned Goes Gone (a :: l) (b :: m)
  | drop {a : α} {l m : List α} : Gone a → Thinned Goes Gone l m → Thinned Goes Gone (a :: l) m

def TTL.Passes (now : Nat) (c d : TTL) : Prop :=
  d = c ∨ ∃ level, d.history = (now, .refreshed level) :: c.history

def TTL.Outlived (now : Nat) (c : TTL) : Prop := c.history.Outlived now

def CachedAddress.Passes (now : Nat) (i j : CachedAddress) : Prop :=
  j.address = i.address ∧ i.ttl.Passes now j.ttl

/-- The host and its addresses: the addresses that are gone are outlived, or the host is. -/
inductive CachedAnswer.HostPasses (now : Nat) (a b : CachedAnswer) : Prop
  | kept : a.ttlHostDomainAndPort.Passes now b.ttlHostDomainAndPort →
      b.hostDomain = a.hostDomain → b.port = a.port →
      Thinned (CachedAddress.Passes now) (fun i => i.ttl.Outlived now) a.ip4Addresses
        b.ip4Addresses → HostPasses now a b
  | removed : a.ttlHostDomainAndPort.Outlived now → b.hostDomain = [] → b.ip4Addresses = [] →
      HostPasses now a b

inductive CachedAnswer.TxtsPass (now : Nat) (a b : CachedAnswer) : Prop
  | kept : a.ttlTxts.Passes now b.ttlTxts → b.txts = a.txts → TxtsPass now a b
  | removed : a.ttlTxts.Outlived now → b.txts = [] → TxtsPass now a b

structure CachedAnswer.Passes (now : Nat) (a b : CachedAnswer) : Prop where
  same : b.serviceDomain = a.serviceDomain
  serviceDomain : a.ttlServiceDomain.Passes now b.ttlServiceDomain
  host : a.HostPasses now b
  txts : a.TxtsPass now b

/-- A service query: an answer is removed where its service domain is outlived. -/
structure ServiceQuery.Passes (now : Nat) (q r : ServiceQuery) : Prop where
  same : r.serviceTypeDomain = q.serviceTypeDomain
  answers : Thinned (CachedAnswer.Passes now) (fun a => a.ttlServiceDomain.Outlived now) q.answers
    r.answers

/-! ## What is cached is in order -/

def CachedAnswer.ttls (a : CachedAnswer) : List TTL :=
  a.ttlServiceDomain :: a.ttlHostDomainAndPort :: a.ttlTxts :: a.ip4Addresses.map CachedAddress.ttl

def cacheTtls (qs : List ServiceQuery) : List TTL :=
  qs.flatMap fun q => q.answers.flatMap CachedAnswer.ttls

structure CachedAnswer.Kept (last : Nat) (a : CachedAnswer) : Prop where
  serviceDomain : a.ttlServiceDomain.Kept last
  host : a.ttlHostDomainAndPort.Kept last
  txts : a.ttlTxts.Kept last
  addresses : ∀ i ∈ a.ip4Addresses, i.ttl.Kept last

def CacheKept (last : Nat) (qs : List ServiceQuery) : Prop :=
  ∀ q ∈ qs, ∀ a ∈ q.answers, a.Kept last

variable {last now : Nat} {c : TTL} {a : CachedAnswer} {q : ServiceQuery}
  {qs : List ServiceQuery} {ttl : UInt32} {sent : Bool}

theorem Thinned.refl {α : Type} {Goes : α → α → Prop} {Gone : α → Prop}
    (hgoes : ∀ a, Goes a a) (l : List α) : Thinned Goes Gone l l := by
  induction l with
  | nil => exact .nil
  | cons a l ih => exact .keep (hgoes a) ih

theorem CachedAddress.Passes.refl (i : CachedAddress) : i.Passes now i := ⟨rfl, .inl rfl⟩

theorem CachedAnswer.HostPasses.refl (a : CachedAnswer) : a.HostPasses now a :=
  .kept (.inl rfl) rfl rfl (.refl CachedAddress.Passes.refl _)

theorem CachedAnswer.TxtsPass.congr {a b a' b' : CachedAnswer} (h : a.TxtsPass now b)
    (httl : a'.ttlTxts = a.ttlTxts) (htxts : a'.txts = a.txts) (httl' : b'.ttlTxts = b.ttlTxts)
    (htxts' : b'.txts = b.txts) : a'.TxtsPass now b' := by
  cases h with
  | kept hpasses hsame =>
    exact .kept (by rwa [httl, httl']) (by rw [htxts', hsame, htxts])
  | removed houtlived hsame => exact .removed (by rwa [httl]) (htxts'.trans hsame)

theorem CachedAnswer.Passes.refl (a : CachedAnswer) : a.Passes now a :=
  ⟨rfl, .inl rfl, .refl a, .kept (.inl rfl) rfl⟩

theorem CachedAnswer.Kept.later (h : a.Kept last) (hle : last ≤ now) : a.Kept now :=
  ⟨h.serviceDomain.later hle, h.host.later hle, h.txts.later hle,
    fun i hi => (h.addresses i hi).later hle⟩

theorem CacheKept.later (h : CacheKept last qs) (hle : last ≤ now) : CacheKept now qs :=
  fun q hq a ha => (h q hq a ha).later hle

theorem CacheKept.ttls (h : CacheKept last qs) (hc : c ∈ cacheTtls qs) : c.Kept last := by
  obtain ⟨q, hq, hc⟩ := mem_flatMap.mp hc
  obtain ⟨a, ha, hc⟩ := mem_flatMap.mp hc
  have hkept := h q hq a ha
  rcases mem_cons.mp hc with rfl | hc
  · exact hkept.serviceDomain
  rcases mem_cons.mp hc with rfl | hc
  · exact hkept.host
  rcases mem_cons.mp hc with rfl | hc
  · exact hkept.txts
  · obtain ⟨i, hi, rfl⟩ := mem_map.mp hc
    exact hkept.addresses i hi

/-! ## A poll -/

theorem TTL.Kept.update (h : c.Kept last) (hle : last ≤ now) (hdue : c.due now = .update)
    (sent : Bool) : (c.update sent now).2.Kept now ∧ c.Passes now (c.update sent now).2 := by
  cases sent with
  | false => exact ⟨h.later hle, .inl rfl⟩
  | true =>
    obtain ⟨-, hkept, hhistory⟩ := h.restart hle hdue
    exact ⟨hkept, .inr ⟨_, hhistory⟩⟩

theorem TTL.set_zero_kept (h : c.Kept last) : (c.set 0 now).Kept now :=
  h.set (show 0 * 800 < 4294967296 by decide)

namespace CachedAnswer

inductive HostChecked (now : Nat) (a b : CachedAnswer) : Prop
  | kept : a.ttlHostDomainAndPort.Passes now b.ttlHostDomainAndPort →
      b.hostDomain = a.hostDomain → b.port = a.port → b.ip4Addresses = a.ip4Addresses →
      HostChecked now a b
  | removed : a.ttlHostDomainAndPort.Outlived now → b.hostDomain = [] → b.ip4Addresses = [] →
      HostChecked now a b

theorem HostChecked.thinned {b d : CachedAnswer} (h : HostChecked now a b)
    (httl : d.ttlHostDomainAndPort = b.ttlHostDomainAndPort) (hhost : d.hostDomain = b.hostDomain)
    (hport : d.port = b.port)
    (hthinned : Thinned (CachedAddress.Passes now) (fun i => i.ttl.Outlived now) b.ip4Addresses
      d.ip4Addresses) : a.HostPasses now d := by
  cases h with
  | kept hpasses hdomain hport' haddresses =>
    rw [haddresses] at hthinned
    exact .kept (httl ▸ hpasses) (hhost.trans hdomain) (hport.trans hport') hthinned
  | removed houtlived hdomain haddresses =>
    rw [haddresses] at hthinned
    generalize hl : d.ip4Addresses = l at hthinned
    cases hthinned
    exact .removed houtlived (hhost.trans hdomain) hl

theorem Kept.checkHostDomainAndPort (h : a.Kept last) (hle : last ≤ now) (sent : Bool) :
    (a.checkHostDomainAndPort sent now).2.Kept now ∧
      HostChecked now a (a.checkHostDomainAndPort sent now).2 ∧
      (a.checkHostDomainAndPort sent now).2.serviceDomain = a.serviceDomain ∧
      (a.checkHostDomainAndPort sent now).2.ttlServiceDomain = a.ttlServiceDomain ∧
      (a.checkHostDomainAndPort sent now).2.ttlTxts = a.ttlTxts ∧
      (a.checkHostDomainAndPort sent now).2.txts = a.txts := by
  obtain ⟨hservice, hhost, htxts, haddresses⟩ := h.later hle
  unfold CachedAnswer.checkHostDomainAndPort
  cases hdue : a.ttlHostDomainAndPort.due now with
  | nothing => exact ⟨h.later hle, .kept (.inl rfl) rfl rfl rfl, rfl, rfl, rfl, rfl⟩
  | update =>
    obtain ⟨hkept, hpasses⟩ := h.host.update hle hdue sent
    exact ⟨⟨hservice, hkept, htxts, haddresses⟩, .kept hpasses rfl rfl rfl, rfl, rfl, rfl, rfl⟩
  | deletion =>
    exact ⟨⟨hservice, TTL.set_zero_kept h.host, htxts, fun _ hi => absurd hi not_mem_nil⟩,
      .removed (h.host.outlived hle hdue) rfl rfl, rfl, rfl, rfl, rfl⟩

theorem Kept.checkTxts (h : a.Kept last) (hle : last ≤ now) (sent : Bool) :
    (a.checkTxts sent now).2.Kept now ∧ a.TxtsPass now (a.checkTxts sent now).2 ∧
      (a.checkTxts sent now).2.serviceDomain = a.serviceDomain ∧
      (a.checkTxts sent now).2.ttlServiceDomain = a.ttlServiceDomain ∧
      (a.checkTxts sent now).2.ttlHostDomainAndPort = a.ttlHostDomainAndPort ∧
      (a.checkTxts sent now).2.hostDomain = a.hostDomain ∧
      (a.checkTxts sent now).2.port = a.port ∧
      (a.checkTxts sent now).2.ip4Addresses = a.ip4Addresses := by
  obtain ⟨hservice, hhost, htxts, haddresses⟩ := h.later hle
  unfold CachedAnswer.checkTxts
  cases hdue : a.ttlTxts.due now with
  | nothing => exact ⟨h.later hle, .kept (.inl rfl) rfl, rfl, rfl, rfl, rfl, rfl, rfl⟩
  | update =>
    obtain ⟨hkept, hpasses⟩ := h.txts.update hle hdue sent
    exact ⟨⟨hservice, hhost, hkept, haddresses⟩, .kept hpasses rfl, rfl, rfl, rfl, rfl, rfl, rfl⟩
  | deletion =>
    exact ⟨⟨hservice, hhost, TTL.set_zero_kept h.txts, haddresses⟩,
      .removed (h.txts.outlived hle hdue) rfl, rfl, rfl, rfl, rfl, rfl, rfl⟩

/-- **The addresses**: those that are gone are outlived. -/
theorem addressLoop_passes {l : List CachedAddress} (h : ∀ i ∈ l, i.ttl.Kept last)
    (hle : last ≤ now) (sent updateQuerySent : Bool) :
    (∀ i ∈ (addressLoop sent now updateQuerySent l).2, i.ttl.Kept now) ∧
      Thinned (CachedAddress.Passes now) (fun i => i.ttl.Outlived now) l
        (addressLoop sent now updateQuerySent l).2 := by
  induction l generalizing updateQuerySent with
  | nil => exact ⟨fun i hi => absurd hi not_mem_nil, .nil⟩
  | cons i rest ih =>
    obtain ⟨hi, hrest⟩ := forall_mem_cons.mp h
    rw [addressLoop]
    cases hdue : i.ttl.due now with
    | nothing =>
      obtain ⟨hkept, hthinned⟩ := ih hrest updateQuerySent
      exact ⟨forall_mem_cons.mpr ⟨hi.later hle, hkept⟩, .keep (.refl i) hthinned⟩
    | deletion =>
      obtain ⟨hkept, hthinned⟩ := ih hrest updateQuerySent
      exact ⟨hkept, .drop (hi.outlived hle hdue) hthinned⟩
    | update =>
      by_cases hsent : (updateQuerySent || sent) = true
      · obtain ⟨hkept, hthinned⟩ := ih hrest true
        obtain ⟨-, hrestart, hhistory⟩ := hi.restart hle hdue
        simp only [if_pos hsent]
        exact ⟨forall_mem_cons.mpr ⟨hrestart, hkept⟩,
          .keep ⟨rfl, .inr ⟨_, hhistory⟩⟩ hthinned⟩
      · simp only [if_neg hsent]
        exact ⟨fun j hj => (h j hj).later hle, .refl CachedAddress.Passes.refl _⟩

theorem Kept.checkIP4Addresses (h : a.Kept last) (hle : last ≤ now) (sent : Bool) :
    (a.checkIP4Addresses sent now).2.Kept now ∧
      Thinned (CachedAddress.Passes now) (fun i => i.ttl.Outlived now) a.ip4Addresses
        (a.checkIP4Addresses sent now).2.ip4Addresses := by
  obtain ⟨hservice, hhost, htxts, -⟩ := h.later hle
  obtain ⟨hkept, hthinned⟩ := addressLoop_passes h.addresses hle sent false
  exact ⟨⟨hservice, hhost, htxts, hkept⟩, hthinned⟩

/-- **The components** of an answer go on, or are outlived. -/
theorem Kept.checkComponents (h : a.Kept last) (hle : last ≤ now) (sent : Question → Bool) :
    (a.checkComponents sent now).2.Kept now ∧ a.HostPasses now (a.checkComponents sent now).2 ∧
      a.TxtsPass now (a.checkComponents sent now).2 ∧
      (a.checkComponents sent now).2.serviceDomain = a.serviceDomain ∧
      (a.checkComponents sent now).2.ttlServiceDomain = a.ttlServiceDomain := by
  obtain ⟨hkept₁, hhost, hsame₁, hservice₁, httl₁, htxts₁⟩ :=
    h.checkHostDomainAndPort hle (sent .hostDomainAndPort)
  unfold CachedAnswer.checkComponents
  generalize a.checkHostDomainAndPort (sent .hostDomainAndPort) now = r₁ at *
  obtain ⟨ok₁, a₁⟩ := r₁
  dsimp only at *
  cases ok₁ with
  | false =>
    exact ⟨hkept₁, hhost.thinned rfl rfl rfl (.refl CachedAddress.Passes.refl _),
      .kept (.inl httl₁) htxts₁, hsame₁, hservice₁⟩
  | true =>
    obtain ⟨hkept₂, htxts, hsame₂, hservice₂, httl₂, hdomain₂, hport₂, haddresses₂⟩ :=
      hkept₁.checkTxts (Nat.le_refl now) (sent .txts)
    have htxts : a.TxtsPass now (a₁.checkTxts (sent .txts) now).2 :=
      htxts.congr httl₁.symm htxts₁.symm rfl rfl
    dsimp only
    generalize a₁.checkTxts (sent .txts) now = r₂ at *
    obtain ⟨ok₂, a₂⟩ := r₂
    dsimp only at *
    have hthinned₂ : Thinned (CachedAddress.Passes now) (fun i => i.ttl.Outlived now)
        a₁.ip4Addresses a₂.ip4Addresses :=
      haddresses₂ ▸ .refl CachedAddress.Passes.refl _
    cases ok₂ with
    | false =>
      exact ⟨hkept₂, hhost.thinned httl₂ hdomain₂ hport₂ hthinned₂, htxts,
        hsame₂.trans hsame₁, hservice₂.trans hservice₁⟩
    | true =>
      obtain ⟨hkept₃, hthinned⟩ :=
        hkept₂.checkIP4Addresses (Nat.le_refl now) (sent .ip4Addresses)
      rw [haddresses₂] at hthinned
      exact ⟨hkept₃, hhost.thinned httl₂ hdomain₂ hport₂ hthinned,
        htxts.congr rfl rfl rfl rfl, hsame₂.trans hsame₁, hservice₂.trans hservice₁⟩

/-- **An answer** goes on, or its service domain is outlived. -/
theorem Kept.check (h : a.Kept last) (hle : last ≤ now) (sent : Question → Bool) :
    ((a.check sent now).2 = none → a.ttlServiceDomain.Outlived now) ∧
      ∀ b, (a.check sent now).2 = some b → b.Kept now ∧ a.Passes now b := by
  unfold CachedAnswer.check
  cases hdue : a.ttlServiceDomain.due now with
  | nothing =>
    obtain ⟨hkept, hhost, htxts, hsame, hservice⟩ := h.checkComponents hle sent
    refine ⟨fun hnone => (by cases hnone), fun b hb => ?_⟩
    obtain rfl := Option.some.inj hb
    exact ⟨hkept, hsame, .inl hservice, hhost, htxts⟩
  | deletion =>
    exact ⟨fun _ => h.serviceDomain.outlived hle hdue, fun b hb => (by cases hb)⟩
  | update =>
    obtain ⟨hkept, hpasses⟩ := h.serviceDomain.update hle hdue (sent .serviceDomain)
    dsimp only
    generalize a.ttlServiceDomain.update (sent .serviceDomain) now = r at *
    obtain ⟨ok, c⟩ := r
    obtain ⟨-, hhost, htxts, haddresses⟩ := h.later hle
    have hkept₁ : CachedAnswer.Kept now { a with ttlServiceDomain := c } :=
      ⟨hkept, hhost, htxts, haddresses⟩
    cases ok with
    | false =>
      refine ⟨fun hnone => (by cases hnone), fun b hb => ?_⟩
      obtain rfl := Option.some.inj hb
      exact ⟨hkept₁, rfl, hpasses, .kept (.inl rfl) rfl rfl
        (.refl CachedAddress.Passes.refl _), .kept (.inl rfl) rfl⟩
    | true =>
      obtain ⟨hkept₂, hhost₂, htxts₂, hsame, hservice⟩ :=
        hkept₁.checkComponents (Nat.le_refl now) sent
      refine ⟨fun hnone => (by cases hnone), fun b hb => ?_⟩
      obtain rfl := Option.some.inj hb
      refine ⟨hkept₂, hsame, hservice ▸ hpasses, ?_, htxts₂.congr rfl rfl rfl rfl⟩
      cases hhost₂ with
      | kept hpasses hdomain hport hthinned => exact .kept hpasses hdomain hport hthinned
      | removed houtlived hdomain haddresses => exact .removed houtlived hdomain haddresses

end CachedAnswer

/-- **The answers**: those that are gone are outlived. -/
theorem checkAnswers_passes {l : List CachedAnswer} (h : ∀ a ∈ l, a.Kept last) (hle : last ≤ now)
    (sent : Nat → Question → Bool) :
    (∀ a ∈ (checkAnswers now sent l).2, a.Kept now) ∧
      Thinned (CachedAnswer.Passes now) (fun a => a.ttlServiceDomain.Outlived now) l
        (checkAnswers now sent l).2 := by
  induction l generalizing sent with
  | nil => exact ⟨fun a ha => absurd ha not_mem_nil, .nil⟩
  | cons a rest ih =>
    obtain ⟨ha, hrest⟩ := forall_mem_cons.mp h
    have hlater : ∀ b ∈ rest, b.Kept now := fun b hb => (hrest b hb).later hle
    obtain ⟨hnone, hsome⟩ := ha.check hle (sent 0)
    rw [checkAnswers]
    generalize a.check (sent 0) now = r at *
    obtain ⟨ok, b⟩ := r
    cases b with
    | none =>
      exact ⟨hlater, .drop (hnone rfl) (.refl CachedAnswer.Passes.refl _)⟩
    | some b =>
      obtain ⟨hkept, hpasses⟩ := hsome b rfl
      cases ok with
      | false =>
        exact ⟨forall_mem_cons.mpr ⟨hkept, hlater⟩,
          .keep hpasses (.refl CachedAnswer.Passes.refl _)⟩
      | true =>
        obtain ⟨hkepts, hthinned⟩ := ih hrest fun i => sent (i + 1)
        exact ⟨forall_mem_cons.mpr ⟨hkept, hkepts⟩, .keep hpasses hthinned⟩

namespace ServiceQuery

theorem Passes.refl (q : ServiceQuery) : q.Passes now q :=
  ⟨rfl, .refl CachedAnswer.Passes.refl _⟩

theorem resend_same (sent : Bool) (now : Nat) (q : ServiceQuery) :
    (q.resend sent now).2.serviceTypeDomain = q.serviceTypeDomain ∧
      (q.resend sent now).2.answers = q.answers := by
  unfold resend
  split
  · cases sent <;> exact ⟨rfl, rfl⟩
  · exact ⟨rfl, rfl⟩

/-- **A service query** in a poll. -/
theorem check_passes (h : ∀ a ∈ q.answers, a.Kept last) (hle : last ≤ now) (sent : Sent) :
    (∀ a ∈ (q.check sent now).2.answers, a.Kept now) ∧ q.Passes now (q.check sent now).2 := by
  obtain ⟨hsame, hanswers⟩ := resend_same sent.resend now q
  unfold check
  generalize q.resend sent.resend now = r at *
  obtain ⟨ok, q'⟩ := r
  dsimp only at *
  rw [← hanswers] at h
  have hunchanged : q.Passes now q' := ⟨hsame, hanswers ▸ .refl CachedAnswer.Passes.refl _⟩
  have hlater : ∀ a ∈ q'.answers, a.Kept now := fun a ha => (h a ha).later hle
  cases ok with
  | false => exact ⟨hlater, hunchanged⟩
  | true =>
    dsimp only
    split
    · obtain ⟨hkept, hthinned⟩ := checkAnswers_passes h hle sent.answers
      exact ⟨hkept, hsame, hanswers ▸ hthinned⟩
    · exact ⟨hlater, hunchanged⟩

end ServiceQuery

/-- **A poll** of the cache in order. -/
theorem CacheKept.poll (h : CacheKept last qs) (hle : last ≤ now) (sent : Nat → Sent) :
    CacheKept now (checkServiceQueryCache now sent qs).2 ∧
      List.Forall₂ (ServiceQuery.Passes now) qs (checkServiceQueryCache now sent qs).2 := by
  induction qs generalizing sent with
  | nil => exact ⟨fun q hq => absurd hq not_mem_nil, .nil⟩
  | cons q rest ih =>
    obtain ⟨hq, hrest⟩ := forall_mem_cons.mp h
    obtain ⟨hkept, hpasses⟩ := ServiceQuery.check_passes hq hle (sent 0)
    rw [checkServiceQueryCache]
    generalize q.check (sent 0) now = r at *
    obtain ⟨ok, q'⟩ := r
    cases ok with
    | false =>
      exact ⟨forall_mem_cons.mpr ⟨hkept, CacheKept.later hrest hle⟩,
        .cons hpasses (forall₂_same.mpr fun q _ => ServiceQuery.Passes.refl q)⟩
    | true =>
      obtain ⟨hkepts, hpass⟩ := ih hrest fun i => sent (i + 1)
      exact ⟨forall_mem_cons.mpr ⟨hkept, hkepts⟩, .cons hpasses hpass⟩

/-! ## What is received -/

def Short (ttl : UInt32) : Prop := ttl.toNat * 800 < 4294967296

theorem forall_mem_changeFirst {α : Type} {Q : α → Prop} {l : List α} {found : α → Bool}
    {change : α → α} (h : ∀ a ∈ l, Q a) (hchange : ∀ a, Q a → Q (change a)) :
    ∀ a ∈ changeFirst found change l, Q a := by
  induction l with
  | nil => exact h
  | cons a rest ih =>
    obtain ⟨ha, hrest⟩ := forall_mem_cons.mp h
    rw [changeFirst]
    split
    · exact forall_mem_cons.mpr ⟨hchange a ha, hrest⟩
    · exact forall_mem_cons.mpr ⟨ha, ih hrest⟩

theorem CachedAnswer.new_kept (domain : List UInt8) (httl : Short ttl) :
    (CachedAnswer.new domain ttl now).Kept now :=
  ⟨(TTL.new_kept now).set httl, TTL.new_kept now, TTL.new_kept now,
    fun _ hi => absurd hi not_mem_nil⟩

theorem CachedAnswer.Kept.receiveSRV (h : a.Kept last) (hle : last ≤ now) (httl : Short ttl)
    (host : List UInt8) (port : Nat) : (a.receiveSRV host port ttl now).Kept now := by
  obtain ⟨hservice, -, htxts, haddresses⟩ := h.later hle
  unfold CachedAnswer.receiveSRV
  dsimp only
  split
  · exact ⟨hservice, h.host.receive httl, htxts, haddresses⟩
  · exact ⟨hservice, h.host.receive httl, htxts, haddresses⟩

theorem CachedAnswer.Kept.receiveTXT (h : a.Kept last) (hle : last ≤ now) (httl : Short ttl)
    (txts : List ServiceTxt) : (a.receiveTXT txts ttl now).Kept now := by
  obtain ⟨hservice, hhost, -, haddresses⟩ := h.later hle
  unfold CachedAnswer.receiveTXT
  dsimp only
  split
  · exact ⟨hservice, hhost, h.txts.receive httl, haddresses⟩
  · exact ⟨hservice, hhost, h.txts.receive httl, haddresses⟩

theorem CachedAnswer.Kept.receiveA (h : a.Kept last) (hle : last ≤ now) (httl : Short ttl)
    (address : IPAddress) : (a.receiveA address ttl now).Kept now := by
  obtain ⟨hservice, hhost, htxts, haddresses⟩ := h.later hle
  unfold CachedAnswer.receiveA
  split
  · exact ⟨hservice, hhost, htxts, forall_mem_changeFirst haddresses fun i hi => hi.receive httl⟩
  · split
    · exact ⟨hservice, hhost, htxts,
        forall_mem_cons.mpr ⟨(TTL.new_kept now).set httl, haddresses⟩⟩
    · exact ⟨hservice, hhost, htxts, haddresses⟩

theorem receivePTR_kept (h : ∀ a ∈ q.answers, a.Kept last) (hle : last ≤ now) (httl : Short ttl)
    (target : List UInt8) : ∀ a ∈ (q.receivePTR target ttl now).answers, a.Kept now := by
  have hlater : ∀ a ∈ q.answers, a.Kept now := fun a ha => (h a ha).later hle
  unfold ServiceQuery.receivePTR
  split
  · exact forall_mem_changeFirst hlater fun a ha =>
      ⟨ha.serviceDomain.receive httl, ha.host, ha.txts, ha.addresses⟩
  · split
    · exact forall_mem_cons.mpr ⟨CachedAnswer.new_kept target httl, hlater⟩
    · exact hlater

theorem onAnswers_kept (h : CacheKept last qs) (hle : last ≤ now) {found : CachedAnswer → Bool}
    {change : CachedAnswer → CachedAnswer} (hchange : ∀ a, a.Kept now → (change a).Kept now) :
    CacheKept now (onAnswers found change qs) := by
  intro q hq
  obtain ⟨q, hmem, rfl⟩ := mem_map.mp hq
  exact forall_mem_changeFirst (h.later hle q hmem) hchange

/-- **Whatever happens**, the cache stays in order. -/
theorem CacheKept.apply (h : CacheKept last qs) (hle : last ≤ now) (e : CacheEvent)
    (hshort : e.Carries Short) : CacheKept now (e.apply now qs) := by
  have hlater := h.later hle
  cases e with
  | poll sent => exact (h.poll hle sent).1
  | ptr domain target ttl =>
    intro q hq
    obtain ⟨q, hmem, rfl⟩ := mem_map.mp hq
    split
    · exact receivePTR_kept (h q hmem) hle hshort target
    · exact hlater q hmem
  | srv domain host port ttl =>
    exact onAnswers_kept h hle fun a ha => ha.receiveSRV (Nat.le_refl now) hshort host port
  | txt domain txts ttl =>
    exact onAnswers_kept h hle fun a ha => ha.receiveTXT (Nat.le_refl now) hshort txts
  | a domain address ttl =>
    exact onAnswers_kept h hle fun a ha => ha.receiveA (Nat.le_refl now) hshort address
  | install domain legacyQuery =>
    exact forall_mem_cons.mpr ⟨fun a ha => absurd ha not_mem_nil, hlater⟩
  | stopAwaiting i =>
    intro q hq
    obtain ⟨j, hj⟩ := mem_iff_getElem?.mp hq
    rw [CacheEvent.apply, getElem?_modify] at hj
    obtain ⟨q', hq', rfl⟩ := Option.map_eq_some_iff.mp hj
    have hmem := mem_of_getElem? hq'
    split
    · exact hlater q' hmem
    · exact hlater q' hmem
  | remove i => exact fun q hq => hlater q (mem_of_mem_eraseIdx hq)

/-- **Every cache that can be reached** is in order. -/
theorem CacheReach.kept {P : UInt32 → Prop} (hP : ∀ ttl, P ttl → Short ttl)
    (h : CacheReach P last qs) : CacheKept last qs := by
  induction h with
  | start now => exact fun q hq => absurd hq not_mem_nil
  | step e _ hle hcarries ih =>
    refine ih.apply hle e ?_
    cases e with
    | ptr _ _ ttl => exact hP ttl hcarries
    | srv _ _ _ ttl => exact hP ttl hcarries
    | txt _ _ ttl => exact hP ttl hcarries
    | a _ _ ttl => exact hP ttl hcarries
    | poll _ => trivial
    | install _ _ => trivial
    | stopAwaiting _ => trivial
    | remove _ => trivial

/-! ## When nothing is early -/

/-- Nothing is asked for or removed too early, and nothing wraps, where records carry some times
to live. -/
def CacheLives (P : UInt32 → Prop) : Prop :=
  ∀ last qs, CacheReach P last qs →
    (∀ c ∈ cacheTtls qs, c.history.Timely ∧ c.Exact) ∧
    ∀ now sent, last ≤ now →
      List.Forall₂ (ServiceQuery.Passes now) qs (checkServiceQueryCache now sent qs).2

/-- A record that comes alone, and a poll where its first timeout is over as the code sees it. -/
def lonelyRecord (ttl : UInt32) : List ServiceQuery :=
  processPTRAnswer [0] [0] ttl 0 [.installed [0] true 0]

theorem lonelyRecord_reach {P : UInt32 → Prop} (httl : P ttl) :
    CacheReach P 0 (lonelyRecord ttl) :=
  .step (.ptr [0] [0] ttl) (.step (.install [0] true) (.start 0) (Nat.le_refl 0) trivial)
    (Nat.le_refl 0) httl

theorem lonelyRecord_eq (hne : ttl.toNat ≠ 0) : lonelyRecord ttl =
    [{ ServiceQuery.installed [0] true 0 with answers := [.new [0] ttl 0] }] := by
  have hsame : domainEq [0] (ServiceQuery.installed [0] true 0).serviceTypeDomain = true := by
    simp [domainEq, sameLabels, sameText, ServiceQuery.installed]
  have hopen : (domainEq [0] (ServiceQuery.installed [0] true 0).serviceTypeDomain &&
      (ServiceQuery.installed [0] true 0).awaitingAnswers) = true := by
    rw [hsame]
    rfl
  have hnew : ((ServiceQuery.installed [0] true 0).answers.any
      fun a => domainEq a.serviceDomain [0]) = false := rfl
  rw [lonelyRecord, processPTRAnswer, map_cons, map_nil, if_pos hopen,
    ServiceQuery.receivePTR, hnew, if_neg Bool.false_ne_true, if_pos hne]
  rfl

theorem due_of_wrap (hne : ttl.toNat ≠ 0) :
    ((TTL.new 0).set ttl 0).due (u32 (ttl.toNat * 800)) = .update := by
  have hlt := u32_lt (ttl.toNat * 800)
  rw [TTL.set_eq hne, TTL.due, if_pos]
  · rfl
  · refine TTL.flagged_iff.mpr ⟨hne, show 80 ≠ 0 by decide, ?_⟩
    rw [PolledTimeout.expiredOneShot, Bool.or_eq_true]
    right
    rw [PolledTimeout.checkExpired, Bool.and_eq_true, decide_eq_true_eq]
    refine ⟨?_, ?_⟩
    · show (!decide (u32 (ttl.toNat * 800) > TimeUnit.millis.timeMax)) = true
      rw [Bool.not_eq_true', decide_eq_false_iff_not]
      show ¬ u32 (ttl.toNat * 800) > 4294967294
      unfold u32
      omega
    · show TimeUnit.millis.toTimeTypeUnit (u32 (ttl.toNat * 800)) ≤
        sub32 (u32 (u32 (ttl.toNat * 800))) (u32 0)
      rw [TTL.millis_ticks hlt, u32_of_lt hlt]
      unfold sub32 u32 at *
      omega

/-- **A time to live whose first timeout wraps** has the record asked for too early. -/
theorem early_of_wrap (hwrap : 4294967296 ≤ ttl.toNat * 800) :
    ∃ c ∈ cacheTtls (checkServiceQueryCache (u32 (ttl.toNat * 800))
      (fun _ => ⟨true, fun _ _ => true⟩) (lonelyRecord ttl)).2, ¬ c.history.Timely := by
  have hne : ttl.toNat ≠ 0 := by omega
  have hdue := due_of_wrap hne
  have hsoon : u32 (ttl.toNat * 800) < 800 * ttl.toNat := by
    have := u32_lt (ttl.toNat * 800)
    omega
  rw [lonelyRecord_eq hne]
  generalize u32 (ttl.toNat * 800) = now at *
  obtain ⟨c, hc⟩ : ∃ c, ((TTL.new 0).set ttl 0).restart now = (true, c) ∧
      c.history = [(now, .refreshed 80), (0, .answer ttl.toNat)] := by
    rw [TTL.set_eq hne]
    exact ⟨_, rfl, rfl⟩
  refine ⟨c, ?_, fun htimely => ?_⟩
  · -- The two other times to live of the answer have never been set.
    have hcheck : (CachedAnswer.new [0] ttl 0).check (fun _ => true) now =
        (true, some { CachedAnswer.new [0] ttl 0 with ttlServiceDomain := c }) := by
      rw [CachedAnswer.check,
        show (CachedAnswer.new [0] ttl 0).ttlServiceDomain.due now = .update from hdue]
      dsimp only
      rw [show (CachedAnswer.new [0] ttl 0).ttlServiceDomain.update true now = (true, c) from hc.1]
      rfl
    have hanswers : checkAnswers now (fun _ _ => true) [CachedAnswer.new [0] ttl 0] =
        (true, [{ CachedAnswer.new [0] ttl 0 with ttlServiceDomain := c }]) := by
      rw [checkAnswers, hcheck]
      rfl
    have hquery : ServiceQuery.check ⟨true, fun _ _ => true⟩ now
        { ServiceQuery.installed [0] true 0 with answers := [.new [0] ttl 0] } =
        (true, { ServiceQuery.installed [0] true 0 with
          answers := [{ CachedAnswer.new [0] ttl 0 with ttlServiceDomain := c }] }) := by
      show ((checkAnswers now (fun _ _ => true) [CachedAnswer.new [0] ttl 0]).1,
        { ServiceQuery.installed [0] true 0 with
          answers := (checkAnswers now (fun _ _ => true) [CachedAnswer.new [0] ttl 0]).2 }) = _
      rw [hanswers]
    rw [checkServiceQueryCache, hquery]
    exact mem_cons_self
  · rw [hc.2] at htimely
    obtain ⟨⟨since, life, hnews, -, hle⟩, -⟩ := htimely
    obtain ⟨rfl, hlife⟩ := Prod.mk.inj (Option.some.inj hnews)
    obtain rfl := Option.some.inj hlife
    omega

theorem not_lives_of_wrap {P : UInt32 → Prop} (httl : P ttl)
    (hwrap : 4294967296 ≤ ttl.toNat * 800) : ¬ CacheLives P := by
  intro hlives
  obtain ⟨c, hc, hnot⟩ := early_of_wrap hwrap
  have hreach := (lonelyRecord_reach httl).step (.poll fun _ => ⟨true, fun _ _ => true⟩)
    (Nat.zero_le (u32 (ttl.toNat * 800))) trivial
  exact hnot ((hlives _ _ hreach).1 c hc).1

end Mdns.Cache
