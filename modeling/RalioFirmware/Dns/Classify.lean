import RalioFirmware.Dns.Query

/-!
# Which questions are the server's own

A packet that asks for a name holds the labels of the name.  The server compares them with
the domain character by character, and so finds the name that is the domain, but it does
not see the end of the domain in front of a NUL in a label, and it takes a name that the
domain or the name goes on behind for an error, also where it should forward it.
-/

namespace Dns

open CString List

/-! ## Names -/

/-- A label: its length stands in a byte, and is not zero. -/
def IsLabel (l : Bytes) : Prop := l ≠ [] ∧ l.length < 256

def nameBytes (labels : List Bytes) : Bytes := labels.flatMap fun l => UInt8.ofNat l.length :: l

def lower (l : Bytes) : Bytes := l.map tolower

def dotted : List Bytes → Bytes
  | [] => []
  | [l] => lower l
  | l :: ls => lower l ++ 46 :: dotted ls

def www : Bytes := [119, 119, 119]

def behindWww : List Bytes → List Bytes
  | [] => []
  | l :: ls => if lower l = www then ls else l :: ls

def shortBytes (n : Nat) : Bytes := [UInt8.ofNat (n / 256), UInt8.ofNat n]

/-- A packet with one question of the types and classes that the server answers. -/
structure Asks (buffer : Bytes) (labels : List Bytes) : Prop where
  size_le : buffer.length ≤ maxPacketSize
  isLabel : ∀ l ∈ labels, IsLabel l
  packet : ∃ id₀ id₁ flags flags' qtype qclass rest,
    qr flags = 0 ∧ opCode flags = 0 ∧ (qtype = 1 ∨ qtype = 255) ∧ (qclass = 1 ∨ qclass = 255) ∧
      buffer = id₀ :: id₁ :: flags :: flags' :: 0 :: 1 :: 0 :: 0 :: 0 :: 0 :: 0 :: 0 ::
        (nameBytes labels ++ 0 :: (shortBytes qtype ++ shortBytes qclass ++ rest))

/-- The name is the server's own domain, or the server takes every name for its own. -/
def Config.Owns (labels : List Bytes) (s : Config) : Prop :=
  cstr s.domainName = [42] ∨
    cstr s.domainName ≠ [] ∧ (dotted labels = cstr s.domainName ∨
      ∃ l ls, labels = l :: ls ∧ lower l = www ∧ dotted ls = cstr s.domainName)

/-- A name parts with a domain in a label: behind labels that are those of the domain, neither
the label nor what is left of the domain, with its NUL, is where the other one starts. -/
inductive Forks : List Bytes → Bytes → Prop
  | here {l : Bytes} {ls : List Bytes} {domain : Bytes} (hlabel : ¬ lower l <+: domain ++ [0])
      (hdomain : ¬ domain ++ [0] <+: lower l) : Forks (l :: ls) domain
  | later {l : Bytes} {ls : List Bytes} {domain : Bytes} (h : Forks ls domain) :
      Forks (l :: ls) (lower l ++ 46 :: domain)

/-! ## The labels of a question -/

theorem nameBytes_cons (l : Bytes) (ls : List Bytes) :
    nameBytes (l :: ls) = UInt8.ofNat l.length :: (l ++ nameBytes ls) := rfl

variable {l : Bytes}

theorem IsLabel.toNat_length (h : IsLabel l) :
    (UInt8.ofNat l.length).toNat = l.length :=
  UInt8.toNat_ofNat_of_lt' h.2

theorem IsLabel.length_ne (h : IsLabel l) : UInt8.ofNat l.length ≠ 0 := by
  intro hzero
  have hlen := h.toNat_length
  rw [hzero] at hlen
  exact h.1 (length_eq_zero_iff.mp hlen.symm)

variable {labels : List Bytes}

variable {fuel : Nat}

/-- **A name is skipped** up to its zero. -/
theorem skipName_name (hlabels : ∀ l ∈ labels, IsLabel l) (rest : Bytes)
    (hfuel : (nameBytes labels ++ 0 :: rest).length < fuel) :
    skipName fuel (nameBytes labels ++ 0 :: rest) (nameBytes labels ++ 0 :: rest).length =
      .ok (some (0 :: rest, rest.length + 1)) := by
  induction labels generalizing fuel with
  | nil =>
    cases fuel with
    | zero => omega
    | succ fuel => rfl
  | cons l ls ih =>
    cases fuel with
    | zero => omega
    | succ fuel =>
      obtain ⟨hl, hls⟩ := forall_mem_cons.mp hlabels
      rw [nameBytes_cons] at hfuel ⊢
      simp only [cons_append, append_assoc, length_cons, length_append]
        at hfuel ⊢
      rw [skipName, if_neg (by omega)]
      simp only [deref, bind, Except.bind, pure, Except.pure, if_neg hl.length_ne,
        hl.toNat_length]
      rw [if_neg (by omega), drop_succ_cons, drop_left]
      have hrest := ih hls (show (nameBytes ls ++ 0 :: rest).length < fuel by
        simp only [length_append, length_cons]
        omega)
      rw [show l.length + ((nameBytes ls).length + (rest.length + 1)) + 1 - (l.length + 1) =
        (nameBytes ls ++ 0 :: rest).length by
          simp only [length_append, length_cons]
          omega]
      exact hrest

theorem skipName_cases {start : Bytes} (hfuel : start.length < fuel) :
    skipName fuel start start.length = .ok none ∨
      ∃ labels rest, (∀ l ∈ labels, IsLabel l) ∧ start = nameBytes labels ++ rest ∧
        (rest = [] ∨ rest.head? = some 0) ∧
          skipName fuel start start.length = .ok (some (rest, rest.length)) := by
  induction fuel generalizing start with
  | zero => omega
  | succ fuel ih =>
    cases start with
    | nil => exact .inr ⟨[], [], by simp, rfl, .inl rfl, rfl⟩
    | cons b p =>
      rw [length_cons] at hfuel
      by_cases hzero : b = 0
      · subst hzero
        exact .inr ⟨[], 0 :: p, by simp, rfl, .inr rfl, rfl⟩
      have hpos : b.toNat ≠ 0 := fun h => hzero (UInt8.toNat_inj.mp h)
      have hlt := b.toNat_lt
      have hstep : skipName (fuel + 1) (b :: p) (b :: p).length =
          if b.toNat + 1 > p.length + 1 then .ok none
          else skipName fuel (p.drop b.toNat) (p.length - b.toNat) := by
        rw [skipName, length_cons, if_neg (by omega)]
        simp only [deref, bind, Except.bind, pure, Except.pure, if_neg hzero,
          drop_succ_cons, Nat.add_sub_add_right]
      rw [hstep]
      by_cases hfit : b.toNat + 1 > p.length + 1
      · exact .inl (if_pos hfit)
      · rw [if_neg hfit, show p.length - b.toNat = (p.drop b.toNat).length by simp]
        rcases ih (show (p.drop b.toNat).length < fuel by rw [length_drop]; omega) with
          hnone | ⟨labels, rest, hlabels, hrest, hend, hskip⟩
        · exact .inl hnone
        · refine .inr ⟨p.take b.toNat :: labels, rest, ?_, ?_, hend, hskip⟩
          · refine forall_mem_cons.mpr ⟨⟨?_, ?_⟩, hlabels⟩
            · refine length_pos_iff.mp ?_
              rw [length_take]
              omega
            · grind
          · rw [nameBytes_cons, length_take, Nat.min_eq_left (by omega),
              UInt8.ofNat_toNat, cons_append, append_assoc, ← hrest,
              take_append_drop]

/-! ## The comparison with the domain -/

theorem lower_cons (b : UInt8) (l : Bytes) : lower (b :: l) = tolower b :: lower l := rfl

theorem length_lower (l : Bytes) : (lower l).length = l.length := length_map _

/-- **A label is compared** with what is left of the domain. -/
theorem matchLabel_eq (l rest domain : Bytes) :
    matchLabel l.length (l ++ rest) domain =
      if lower l <+: domain then .ok (some (rest, domain.drop l.length))
      else if domain <+: lower l then .error .domain
      else .ok none := by
  induction l generalizing domain with
  | nil => rw [if_pos (show lower [] <+: domain from List.nil_prefix)]; rfl
  | cons b l ih =>
    cases domain with
    | nil =>
      rw [if_neg (by simp [lower_cons]), if_pos List.nil_prefix]
      rfl
    | cons c domain =>
      rw [length_cons, cons_append, matchLabel, lower_cons]
      simp only [deref, bind, Except.bind, pure, Except.pure, drop_succ_cons,
        drop_zero, cons_prefix_cons, ih]
      by_cases hsame : tolower b = c
      · simp only [hsame, ne_eq, not_true_eq_false, if_false, true_and]
      · grind

variable {ls : List Bytes}

theorem dotted_cons (l : Bytes) (hne : ls ≠ []) :
    dotted (l :: ls) = lower l ++ 46 :: dotted ls := by
  cases ls with
  | nil => exact absurd rfl hne
  | cons l' ls => rfl

theorem lower_prefix_dotted (l : Bytes) (ls : List Bytes) : lower l <+: dotted (l :: ls) := by
  cases ls with
  | nil => exact prefix_refl _
  | cons l' ls => exact prefix_append _ _

inductive Compared (labels : List Bytes) (domain : Bytes) : Except Fault Match → Prop
  | overrun (h : domain ++ [0] <+: dotted labels) : Compared labels domain (.error .domain)
  | own (hne : labels ≠ []) (h : dotted labels = domain) : Compared labels domain (.ok .own)
  | differs (hfork : Forks labels domain) (hover : ¬ domain ++ [0] <+: dotted labels)
      (hother : dotted labels ≠ domain) : Compared labels domain (.ok .differs)
  | ends (hfork : ¬ Forks labels domain) (hover : ¬ domain ++ [0] <+: dotted labels)
      (hother : ¬ (labels ≠ [] ∧ dotted labels = domain)) : Compared labels domain (.ok .ends)

theorem Compared.cons {labels : List Bytes} {domain : Bytes} {result : Except Fault Match}
    (h : Compared labels domain result) (hne : labels ≠ []) (l : Bytes) :
    Compared (l :: labels) (lower l ++ 46 :: domain) result := by
  have hdotted := dotted_cons l hne
  have hstart : (lower l ++ 46 :: domain) ++ [0] <+: dotted (l :: labels) ↔
      domain ++ [0] <+: dotted labels := by
    rw [hdotted, append_assoc, prefix_append_right_inj, cons_append,
      cons_prefix_cons]
    simp
  have hsame : dotted (l :: labels) = lower l ++ 46 :: domain ↔ dotted labels = domain := by
    rw [hdotted, append_right_inj, cons.injEq]
    simp
  have hforks : Forks (l :: labels) (lower l ++ 46 :: domain) ↔ Forks labels domain := by
    constructor
    · intro hfork
      generalize hd : lower l ++ 46 :: domain = d at hfork
      cases hfork with
      | here hlabel =>
        grind
      | later hfork =>
        have hdomain := append_cancel_left hd
        rw [cons.injEq] at hdomain
        rw [hdomain.2]
        exact hfork
    · exact .later
  cases h with
  | overrun h => exact .overrun (hstart.mpr h)
  | own hne' h => exact .own (cons_ne_nil _ _) (hsame.mpr h)
  | differs hfork hover hother =>
    exact .differs (hforks.mpr hfork) (fun h => hover (hstart.mp h))
      (fun h => hother (hsame.mp h))
  | ends hfork hover hother =>
    exact .ends (fun h => hfork (hforks.mp h)) (fun h => hover (hstart.mp h))
      (fun h => hother ⟨hne, hsame.mp h.2⟩)

theorem Compared.ends_behind {domain : Bytes}
    (hdot : ls = [] → domain ≠ []) (hhead : ls ≠ [] → domain.headD 0 ≠ 46) :
    Compared (l :: ls) (lower l ++ domain) (.ok .ends) := by
  have hfork : ls ≠ [] → ∀ d, 46 :: d ≠ domain := by
    rintro hne d rfl
    exact hhead hne rfl
  refine .ends ?_ ?_ ?_
  · intro hfork'
    generalize hd : lower l ++ domain = d at hfork'
    cases hfork' with
    | here hlabel =>
      grind
    | later hrest =>
      have hne : ls ≠ [] := by
        rintro rfl
        cases hrest
      exact hfork hne _ (append_cancel_left hd).symm
  · intro hover
    by_cases hne : ls = []
    · subst hne
      have hlen := hover.length_le
      have hpos := length_pos_iff.mpr (hdot rfl)
      simp only [dotted, length_append, length_singleton] at hlen
      omega
    · rw [dotted_cons l hne, append_assoc, prefix_append_right_inj] at hover
      cases domain with
      | nil => exact absurd (cons_prefix_cons.mp hover).1 (by decide)
      | cons c domain => exact hhead hne (cons_prefix_cons.mp hover).1
  · rintro ⟨-, hsame⟩
    by_cases hne : ls = []
    · subst hne
      have hlen := congrArg length hsame
      have hpos := length_pos_iff.mpr (hdot rfl)
      simp only [dotted, length_append] at hlen
      omega
    · rw [dotted_cons l hne] at hsame
      exact hfork hne _ (append_cancel_left hsame)

theorem prefix_domain_cases {domain : Bytes} (h : lower l <+: domain ++ [0]) :
    lower l = domain ++ [0] ∨ ∃ domain', domain = lower l ++ domain' := by
  obtain ⟨t, ht⟩ := h
  rcases eq_nil_or_concat t with rfl | ⟨t, b, rfl⟩
  · exact .inl (by simpa using ht)
  · rw [concat_eq_append, ← append_assoc] at ht
    exact .inr ⟨t, (append_inj' ht rfl).1.symm⟩

/-- **A name is compared** with the domain label by label. -/
theorem matchName_compared (hlabels : ∀ l ∈ labels, IsLabel l)
    {domain : Bytes} (hnul : 0 ∉ domain) (rest : Bytes)
    (hfuel : labels.length < fuel) :
    Compared labels domain (matchName fuel (nameBytes labels ++ 0 :: rest) (domain ++ [0])) := by
  induction labels generalizing fuel domain with
  | nil =>
    cases fuel with
    | zero => omega
    | succ fuel =>
      refine .ends (fun h => by cases h) (fun h => ?_) (fun h => absurd rfl h.1)
      have hlen := h.length_le
      simp [dotted] at hlen
  | cons l ls ih =>
    cases fuel with
    | zero => omega
    | succ fuel =>
      obtain ⟨hl, hls⟩ := forall_mem_cons.mp hlabels
      rw [length_cons] at hfuel
      rw [nameBytes_cons, matchName]
      simp only [cons_append, append_assoc, deref, bind, Except.bind, pure,
        Except.pure, if_neg hl.length_ne, drop_succ_cons, drop_zero,
        hl.toNat_length, matchLabel_eq]
      by_cases hlabel : lower l <+: domain ++ [0]
      · rw [if_pos hlabel]
        rcases prefix_domain_cases hlabel with hover | ⟨domain', rfl⟩
        · -- The label ends with the NUL of the domain.
          have hcompared : Compared (l :: ls) domain (.error .domain) :=
            .overrun (by rw [← hover]; exact lower_prefix_dotted l ls)
          have hdrop : (domain ++ [0]).drop l.length = [] := by
            rw [← hover, ← length_lower, drop_length]
          rw [hdrop]
          cases ls with
          | nil => exact hcompared
          | cons l' ls => exact hcompared
        · have hdrop : (lower l ++ domain' ++ [0]).drop l.length = domain' ++ [0] := by
            rw [append_assoc, ← length_lower, drop_left]
          have hnul' : 0 ∉ domain' := fun h => hnul (mem_append_right _ h)
          rw [hdrop]
          cases ls with
          | nil =>
            cases domain' with
            | nil => exact .own (cons_ne_nil _ _) (append_nil _).symm
            | cons c domain' =>
              have hc : c ≠ 0 := fun h => hnul' (h ▸ mem_cons_self)
              obtain ⟨fuel, rfl⟩ : ∃ n, fuel = n + 1 := ⟨fuel - 1, by omega⟩
              have hends : Compared [l] (lower l ++ c :: domain') (.ok .ends) :=
                .ends_behind (fun _ => cons_ne_nil _ _) (fun h => absurd rfl h)
              by_cases hdot : c = 46
              · subst hdot
                exact hends
              · simpa [nameBytes, hc, hdot] using hends
          | cons l' ls =>
            have hl' := hls l' mem_cons_self
            rw [nameBytes_cons]
            by_cases hdot : domain'.headD 0 = 46
            · obtain ⟨domain', rfl⟩ : ∃ d, domain' = 46 :: d := by
                cases domain' with
                | nil => exact absurd hdot (by decide)
                | cons c d => exact ⟨d, by rw [headD_cons] at hdot; rw [hdot]⟩
              have hrest := ih hls (fun h => hnul' (mem_cons_of_mem _ h))
                (show (l' :: ls).length < fuel by omega)
              simpa [hl'.length_ne, nameBytes_cons] using
                hrest.cons (cons_ne_nil _ _) l
            · have hends : Compared (l :: l' :: ls) (lower l ++ domain') (.ok .ends) :=
                .ends_behind (fun h => by cases h) (fun _ => hdot)
              cases domain' with
              | nil => simpa [hl'.length_ne] using hends
              | cons c domain' =>
                grind
      · rw [if_neg hlabel]
        by_cases hdomain : domain ++ [0] <+: lower l
        · rw [if_pos hdomain]
          exact .overrun (hdomain.trans (lower_prefix_dotted l ls))
        · rw [if_neg hdomain]
          refine .differs (.here hlabel hdomain) (fun hover => ?_) (fun hsame => ?_)
          · rcases prefix_or_prefix_of_prefix hover (lower_prefix_dotted l ls) with h | h
            · exact hdomain h
            · exact hlabel h
          · refine hlabel ((lower_prefix_dotted l ls).trans ?_)
            rw [hsame]
            exact prefix_append _ _

/-! ## A packet with a question -/

theorem startsWithWww_cons (a b c : UInt8) (rest : Bytes) :
    startsWithWww (a :: b :: c :: rest) = .ok (decide (lower [a, b, c] = www)) := by
  simp only [startsWithWww, deref, drop_succ_cons, drop_zero, bind, Except.bind, pure,
    Except.pure, lower, www, map_cons, map_nil, cons.injEq, and_true]
  by_cases ha : tolower a = 119
  · by_cases hb : tolower b = 119
    · simp [ha, hb]
    · simp [ha, hb]
  · simp [ha]

/-- **A leading "www" is skipped.** -/
theorem skipWww_name (hlabels : ∀ l ∈ labels, IsLabel l) (rest : Bytes) :
    skipWww (nameBytes labels ++ 0 :: rest) =
      .ok (nameBytes (behindWww labels) ++ 0 :: rest) := by
  cases labels with
  | nil => rfl
  | cons l ls =>
    have hl := hlabels l mem_cons_self
    rw [nameBytes_cons, cons_append, append_assoc, skipWww]
    simp only [deref, bind, Except.bind, pure, Except.pure, drop_succ_cons, drop_zero]
    by_cases hthree : l.length = 3
    · obtain ⟨a, b, c, rfl⟩ := length_eq_three.mp hthree
      rw [if_pos (by rw [hthree]; rfl)]
      simp only [cons_append, nil_append, startsWithWww_cons, behindWww]
      by_cases hwww : lower [a, b, c] = www
      · grind
      · rw [decide_eq_false hwww, if_neg (by decide), if_neg hwww]
        rfl
    · have hne : UInt8.ofNat l.length ≠ 3 := by
        intro h
        have hlen := hl.toNat_length
        rw [h] at hlen
        exact hthree hlen.symm
      have hwww : lower l ≠ www := by
        intro h
        have hlen := congrArg length h
        rw [length_lower] at hlen
        exact hthree hlen
      rw [if_neg hne, behindWww, if_neg hwww, nameBytes_cons]
      simp

theorem length_behindWww_le (labels : List Bytes) :
    (behindWww labels).length ≤ (nameBytes labels).length := by
  have hle : labels.length ≤ (nameBytes labels).length := by
    induction labels with
    | nil => exact Nat.le_refl _
    | cons l ls ih =>
      rw [nameBytes_cons, length_cons, length_cons, length_append]
      omega
  cases labels with
  | nil => exact hle
  | cons l ls =>
    rw [behindWww]
    split
    · exact Nat.le_trans (Nat.le_succ _) hle
    · exact hle

/-- What the server does about a question, after its name has been compared. -/
def Config.verdict (query : Bytes) (result : Except Fault Match) (s : Config) :
    Except Fault Answer :=
  match result with
  | .error fault => .error fault
  | .ok .own => .ok (.ip query)
  | .ok .differs => .ok (if s.forwarder then .forward else .error s.errorReplyCode (some query))
  | .ok .ends => .ok (.error s.errorReplyCode (some query))

/-- **The answer to a question**: without a domain, for every domain, or for one. -/
theorem answerName_name (hlabels : ∀ l ∈ labels, IsLabel l) (rest : Bytes)
    (queryLength : Nat) (s : Config) :
    ∃ query,
      (s.domainName = [] ∧ answerName (nameBytes labels ++ 0 :: rest) queryLength s =
        .ok (if s.forwarder then .forward else .error s.errorReplyCode (some query))) ∨
      (s.domainName ≠ [] ∧ cstr s.domainName = [42] ∧
        answerName (nameBytes labels ++ 0 :: rest) queryLength s = .ok (.ip query)) ∨
      (s.domainName ≠ [] ∧ cstr s.domainName ≠ [42] ∧
        ∃ result, Compared (behindWww labels) (cstr s.domainName) result ∧
          answerName (nameBytes labels ++ 0 :: rest) queryLength s = s.verdict query result) := by
  refine ⟨(nameBytes labels ++ 0 :: rest).take queryLength, ?_⟩
  by_cases hempty : s.domainName = []
  · refine .inl ⟨hempty, ?_⟩
    rw [answerName, if_pos (by rw [hempty]; rfl)]
    rfl
  have hlen : s.domainName.length ≠ 0 := fun h => hempty (length_eq_zero_iff.mp h)
  by_cases hwild : cstr s.domainName = [42]
  · refine .inr (.inl ⟨hempty, hwild, ?_⟩)
    rw [answerName, if_neg hlen, if_pos hwild]
    rfl
  · refine .inr (.inr ⟨hempty, hwild, ?_⟩)
    have hbehind : ∀ l ∈ behindWww labels, IsLabel l := by
      cases labels with
      | nil => exact hlabels
      | cons l ls =>
        rw [behindWww]
        split
        · exact fun l' hl' => hlabels l' (mem_cons_of_mem _ hl')
        · exact hlabels
    have hfuel : (behindWww labels).length < (nameBytes labels ++ 0 :: rest).length + 1 := by
      have hle := length_behindWww_le labels
      rw [length_append]
      omega
    refine ⟨_, matchName_compared hbehind (zero_notMem_cstr _) rest hfuel, ?_⟩
    rw [answerName, if_neg hlen, if_neg hwild, skipWww_name hlabels]
    simp only [bind, Except.bind, pure, Except.pure]
    generalize matchName _ _ _ = result
    cases result with
    | error fault => rfl
    | ok result =>
      cases result with
      | own => rfl
      | differs => rfl
      | ends => rfl

/-- A question of a type and class that the server answers. -/
def InScope (qtype qclass : Nat) : Prop := (qtype = 1 ∨ qtype = 255) ∧ (qclass = 1 ∨ qclass = 255)

theorem short_cons (a b : UInt8) (p : Bytes) :
    short (a :: b :: p) = .ok (256 * a.toNat + b.toNat) := rfl

variable {n : Nat}

theorem shortBytes_of_short {a b : UInt8} (h : 256 * a.toNat + b.toNat = n) :
    [a, b] = shortBytes n := by
  have hb := b.toNat_lt
  have ha : n / 256 = a.toNat := by omega
  have hsame : UInt8.ofNat n = b := by
    refine UInt8.toNat_inj.mp ?_
    rw [UInt8.toNat_ofNat']
    omega
  rw [shortBytes, ha, UInt8.ofNat_toNat, hsame]

theorem short_shortBytes (hn : n < 256) (p : Bytes) :
    short (shortBytes n ++ p) = .ok n := by
  rw [shortBytes, cons_append, cons_append, nil_append, short_cons,
    Nat.div_eq_of_lt hn, UInt8.toNat_ofNat_of_lt' hn]
  simp

/-- **A question in scope** is answered by its name. -/
theorem answerQuestion_name (hlabels : ∀ l ∈ labels, IsLabel l)
    {qtype qclass : Nat} (hscope : InScope qtype qclass) (rest : Bytes) (s : Config) :
    ∃ tail queryLength, answerQuestion
      (nameBytes labels ++ 0 :: (shortBytes qtype ++ shortBytes qclass ++ rest)) s =
        answerName (nameBytes labels ++ 0 :: tail) queryLength s := by
  obtain ⟨htype, hclass⟩ := hscope
  refine ⟨shortBytes qtype ++ shortBytes qclass ++ rest, ?_⟩
  rw [answerQuestion, skipName_name hlabels _ (Nat.lt_succ_self _)]
  have hlen : ¬ (shortBytes qtype ++ shortBytes qclass ++ rest).length + 1 < 5 := by
    simp only [length_append, shortBytes, length_cons, length_nil]
    omega
  have hqtype : short ((0 :: (shortBytes qtype ++ shortBytes qclass ++ rest)).drop 1) =
      .ok qtype := by
    rw [drop_succ_cons, drop_zero, append_assoc]
    exact short_shortBytes (by omega) _
  have hqclass : short ((0 :: (shortBytes qtype ++ shortBytes qclass ++ rest)).drop 3) =
      .ok qclass := short_shortBytes (n := qclass) (by omega) rest
  simp only [bind, Except.bind, pure, Except.pure, if_neg hlen, hqtype, hqclass]
  rw [if_neg (by omega), if_neg (by omega)]
  exact ⟨_, rfl⟩

theorem exists_cons_of_le {p : Bytes} (h : n + 1 ≤ p.length) :
    ∃ b q, p = b :: q ∧ n ≤ q.length := by
  cases p with
  | nil => exact absurd h (Nat.not_succ_le_zero n)
  | cons b q => exact ⟨b, q, rfl, Nat.le_of_succ_le_succ h⟩

theorem answerQuestion_cases (query : Bytes) (s : Config) :
    (∃ labels qtype qclass rest, (∀ l ∈ labels, IsLabel l) ∧ InScope qtype qclass ∧
      query = nameBytes labels ++ 0 :: (shortBytes qtype ++ shortBytes qclass ++ rest)) ∨
    ∃ rcode q, answerQuestion query s = .ok (.error rcode q) := by
  rcases skipName_cases (Nat.lt_succ_self query.length) with
    hnone | ⟨labels, start, hlabels, hquery, hend, hskip⟩
  · exact .inr ⟨.formError, none, by rw [answerQuestion, hnone]; rfl⟩
  by_cases hshort : start.length < 5
  · refine .inr ⟨.formError, none, ?_⟩
    rw [answerQuestion, hskip]
    simp only [bind, Except.bind, pure, Except.pure, if_pos hshort]
  obtain ⟨zero, a, b, c, d, rest, rfl⟩ :
      ∃ zero a b c d rest, start = zero :: a :: b :: c :: d :: rest := by
    have hle₀ : 5 ≤ start.length := Nat.le_of_not_lt hshort
    obtain ⟨zero, p, rfl, hle₁⟩ := exists_cons_of_le hle₀
    obtain ⟨a, p, rfl, hle₂⟩ := exists_cons_of_le hle₁
    obtain ⟨b, p, rfl, hle₃⟩ := exists_cons_of_le hle₂
    obtain ⟨c, p, rfl, hle₄⟩ := exists_cons_of_le hle₃
    obtain ⟨d, rest, rfl, -⟩ := exists_cons_of_le hle₄
    exact ⟨zero, a, b, c, d, rest, rfl⟩
  obtain rfl : zero = 0 := by simpa using hend
  by_cases hscope : InScope (256 * a.toNat + b.toNat) (256 * c.toNat + d.toNat)
  · refine .inl ⟨labels, _, _, rest, hlabels, hscope, ?_⟩
    rw [← shortBytes_of_short rfl, ← shortBytes_of_short rfl, hquery]
    rfl
  · right
    rw [answerQuestion, hskip]
    simp only [bind, Except.bind, pure, Except.pure, if_neg hshort, drop_succ_cons,
      drop_zero, short_cons]
    by_cases hclass : 256 * c.toNat + d.toNat ≠ 255 ∧ 256 * c.toNat + d.toNat ≠ 1
    · rw [if_pos hclass]
      exact ⟨_, _, rfl⟩
    · have htype : 256 * a.toNat + b.toNat ≠ 1 ∧ 256 * a.toNat + b.toNat ≠ 255 := by
        unfold InScope at hscope
        omega
      rw [if_neg hclass, if_pos htype]
      exact ⟨_, _, rfl⟩

variable {buffer : Bytes}

/-- **A packet with a question in scope** is answered by its name. -/
theorem Asks.answer_eq (h : Asks buffer labels)
    (s : Config) : ∃ tail queryLength,
      answer buffer s = answerName (nameBytes labels ++ 0 :: tail) queryLength s := by
  obtain ⟨hsize, hlabels, id₀, id₁, flags, flags', qtype, qclass, rest, hqr, hop, htype, hclass,
    rfl⟩ := h
  obtain ⟨tail, queryLength, hname⟩ := answerQuestion_name hlabels ⟨htype, hclass⟩ rest s
  refine ⟨tail, queryLength, ?_⟩
  rw [answer, if_neg (by omega), if_neg (by simp [headerSize]), respondToRequest]
  simp only [deref, drop_succ_cons, drop_zero, bind, Except.bind, pure, Except.pure,
    hqr, hop, short_cons, headerSize]
  exact hname

theorem answer_cases (buffer : Bytes) (s : Config) :
    (∃ labels, Asks buffer labels) ∨ answer buffer s = .ok .ignored ∨
      ∃ rcode q, answer buffer s = .ok (.error rcode q) := by
  by_cases hlong : buffer.length > maxPacketSize
  · exact .inr (.inl (if_pos hlong))
  by_cases hshort : buffer.length < headerSize
  · exact .inr (.inl (by rw [answer, if_neg hlong, if_pos hshort]))
  obtain ⟨i, j, flags, flags', a, b, c, d, e, f, g, h, query, rfl⟩ :
      ∃ i j flags flags' a b c d e f g h query, buffer =
        i :: j :: flags :: flags' :: a :: b :: c :: d :: e :: f :: g :: h :: query := by
    have hle₀ : 12 ≤ buffer.length := Nat.le_of_not_lt hshort
    obtain ⟨i, p, rfl, hle₁⟩ := exists_cons_of_le hle₀
    obtain ⟨j, p, rfl, hle₂⟩ := exists_cons_of_le hle₁
    obtain ⟨flags, p, rfl, hle₃⟩ := exists_cons_of_le hle₂
    obtain ⟨flags', p, rfl, hle₄⟩ := exists_cons_of_le hle₃
    obtain ⟨a, p, rfl, hle₅⟩ := exists_cons_of_le hle₄
    obtain ⟨b, p, rfl, hle₆⟩ := exists_cons_of_le hle₅
    obtain ⟨c, p, rfl, hle₇⟩ := exists_cons_of_le hle₆
    obtain ⟨d, p, rfl, hle₈⟩ := exists_cons_of_le hle₇
    obtain ⟨e, p, rfl, hle₉⟩ := exists_cons_of_le hle₈
    obtain ⟨f, p, rfl, hle₁₀⟩ := exists_cons_of_le hle₉
    obtain ⟨g, p, rfl, hle₁₁⟩ := exists_cons_of_le hle₁₀
    obtain ⟨h, query, rfl, -⟩ := exists_cons_of_le hle₁₁
    exact ⟨i, j, flags, flags', a, b, c, d, e, f, g, h, query, rfl⟩
  rw [answer, if_neg hlong, if_neg hshort, respondToRequest]
  simp only [deref, drop_succ_cons, drop_zero, bind, Except.bind, pure, Except.pure,
    short_cons, headerSize]
  by_cases hqr : qr flags ≠ 0
  · exact .inr (.inl (if_pos hqr))
  rw [if_neg hqr]
  by_cases hop : opCode flags ≠ 0
  · exact .inr (.inr ⟨_, _, if_pos hop⟩)
  rw [if_neg hop]
  by_cases hqd : 256 * a.toNat + b.toNat ≠ 1
  · exact .inr (.inr ⟨_, _, if_pos hqd⟩)
  rw [if_neg hqd]
  by_cases hcounts : 256 * c.toNat + d.toNat ≠ 0 ∨ 256 * e.toNat + f.toNat ≠ 0 ∨
      256 * g.toNat + h.toNat ≠ 0
  · exact .inr (.inr ⟨_, _, if_pos hcounts⟩)
  rw [if_neg hcounts]
  rcases answerQuestion_cases query s with
    ⟨labels, qtype, qclass, rest, hlabels, ⟨htype, hclass⟩, rfl⟩ | herror
  · have hzero : ∀ {x : UInt8}, x.toNat = 0 → x = 0 := fun hx => UInt8.toNat_inj.mp hx
    obtain rfl : a = 0 := hzero (by omega)
    obtain rfl : b = 1 := UInt8.toNat_inj.mp (show b.toNat = 1 by simp at hqd; omega)
    obtain rfl : c = 0 := hzero (by omega)
    obtain rfl : d = 0 := hzero (by omega)
    obtain rfl : e = 0 := hzero (by omega)
    obtain rfl : f = 0 := hzero (by omega)
    obtain rfl : g = 0 := hzero (by omega)
    obtain rfl : h = 0 := hzero (by omega)
    exact .inl ⟨labels, Nat.le_of_not_lt hlong, hlabels, i, j, flags, flags', qtype, qclass, rest,
      not_not.mp hqr, not_not.mp hop, htype, hclass, rfl⟩
  · exact .inr (.inr herror)

/-! ## The classification -/

/-- **A packet is classified**: nothing is read outside of it and of the domain, a question is
taken for one of the own domain exactly if it is, and any other is forwarded where the server
forwards. -/
def Config.Classifies (buffer : Bytes) (s : Config) : Prop :=
  ∃ a, answer buffer s = .ok a ∧
    ((∃ query, a = .ip query) ↔ ∃ labels, Asks buffer labels ∧ s.Owns labels) ∧
      (s.forwarder = true → ∀ labels, Asks buffer labels → ¬ s.Owns labels → a = .forward)

/-- The name of a question, behind a leading "www", does not go on behind the domain with a NUL
in a label; with that "www" it is not the domain; and where the server forwards, it parts with
the domain in a label, if it is not the domain. -/
def Config.Distinct (buffer : Bytes) (s : Config) : Prop :=
  ∀ labels, Asks buffer labels → s.domainName ≠ [] → cstr s.domainName ≠ [42] →
    ¬ cstr s.domainName ++ [0] <+: dotted (behindWww labels) ∧
      ¬ (behindWww labels ≠ labels ∧ dotted labels = cstr s.domainName) ∧
        (s.forwarder = true → s.Owns labels ∨ Forks (behindWww labels) (cstr s.domainName))

theorem dotted_ne_nil (hlabels : ∀ l ∈ labels, IsLabel l)
    (hne : labels ≠ []) : dotted labels ≠ [] := by
  obtain ⟨l, ls, rfl⟩ := exists_cons_of_ne_nil hne
  have hlen := (lower_prefix_dotted l ls).length_le
  have hpos := length_pos_iff.mpr (hlabels l mem_cons_self).1
  rw [length_lower] at hlen
  exact length_pos_iff.mp (by omega)

theorem behindWww_cases (labels : List Bytes) :
    behindWww labels = labels ∨ ∃ l, labels = l :: behindWww labels ∧ lower l = www := by
  cases labels with
  | nil => exact .inl rfl
  | cons l ls =>
    by_cases hwww : lower l = www
    · exact .inr ⟨l, by rw [behindWww, if_pos hwww], hwww⟩
    · exact .inl (by rw [behindWww, if_neg hwww])

variable {s : Config}

theorem Config.owns_of_dotted
    (hlabels : ∀ l ∈ labels, IsLabel l) (hne : behindWww labels ≠ [])
    (h : dotted (behindWww labels) = cstr s.domainName) : s.Owns labels := by
  have hdomain : cstr s.domainName ≠ [] := by
    rw [← h]
    refine dotted_ne_nil (fun l hl => hlabels l ?_) hne
    rcases behindWww_cases labels with heq | ⟨l', heq, -⟩
    · rwa [heq] at hl
    · grind
  rcases behindWww_cases labels with heq | ⟨l, heq, hwww⟩
  · rw [heq] at h
    exact .inr ⟨hdomain, .inl h⟩
  · exact .inr ⟨hdomain, .inr ⟨l, _, heq, hwww, h⟩⟩

theorem Config.Owns.dotted (h : s.Owns labels)
    (hwild : cstr s.domainName ≠ [42])
    (hwww : ¬ (behindWww labels ≠ labels ∧ Dns.dotted labels = cstr s.domainName)) :
    behindWww labels ≠ [] ∧ Dns.dotted (behindWww labels) = cstr s.domainName := by
  obtain ⟨hne, hname⟩ := h.resolve_left hwild
  have hdotted : Dns.dotted (behindWww labels) = cstr s.domainName := by
    rcases hname with hname | ⟨l, ls, rfl, hl, hname⟩
    · have heq : behindWww labels = labels := by
        by_contra hno
        exact hwww ⟨hno, hname⟩
      rw [heq]
      exact hname
    · rw [behindWww, if_pos hl]
      exact hname
  refine ⟨fun hnil => hne ?_, hdotted⟩
  rw [← hdotted, hnil]
  rfl

theorem Config.owns_of_www
    (hlabels : ∀ l ∈ labels, IsLabel l) (hwww : behindWww labels ≠ labels)
    (h : Dns.dotted labels = cstr s.domainName) : s.Owns labels := by
  have hne : labels ≠ [] := by
    rintro rfl
    exact hwww rfl
  exact .inr ⟨h ▸ dotted_ne_nil hlabels hne, .inl h⟩

/-- **A question that is kept distinct from the domain** is answered with the own address if it
is of the domain, and else forwarded where the server forwards. -/
theorem Config.Distinct.answer (hs : s.Distinct buffer)
    (h : Asks buffer labels) :
    (s.Owns labels ∧ ∃ query, Dns.answer buffer s = .ok (.ip query)) ∨
      (¬ s.Owns labels ∧ (s.forwarder = true → Dns.answer buffer s = .ok .forward) ∧
        ∃ a, Dns.answer buffer s = .ok a ∧ ∀ query, a ≠ .ip query) := by
  obtain ⟨tail, queryLength, hanswer⟩ := h.answer_eq s
  obtain ⟨query, ⟨hempty, hname⟩ | ⟨-, hstar, hname⟩ |
      ⟨hdomain, hwild, result, hcompared, hname⟩⟩ :=
    answerName_name h.isLabel tail queryLength s
  · refine .inr ⟨?_, fun hforwarder => ?_, _, hanswer.trans hname, fun query => ?_⟩
    · rintro (hstar | ⟨hne, -⟩)
      · rw [hempty] at hstar
        cases hstar
      · rw [hempty] at hne
        exact hne rfl
    · rw [hanswer, hname, if_pos hforwarder]
    · split <;> simp
  · exact .inl ⟨.inl hstar, query, hanswer.trans hname⟩
  obtain ⟨hover, hwww, hforks⟩ := hs labels h hdomain hwild
  rw [hanswer, hname]
  cases hcompared with
  | overrun hover' => exact absurd hover' hover
  | own hne hsame => exact .inl ⟨owns_of_dotted h.isLabel hne hsame, query, rfl⟩
  | differs hfork hover hother =>
    refine .inr ⟨fun howns => hother (howns.dotted hwild hwww).2, fun hforwarder => ?_, _, rfl,
      fun query => ?_⟩
    · rw [verdict, if_pos hforwarder]
    · split <;> simp
  | ends hfork hover hother =>
    have hno : ¬ s.Owns labels := fun howns => hother (howns.dotted hwild hwww)
    refine .inr ⟨hno, fun hforwarder => ?_, _, rfl, fun query => by simp⟩
    exact absurd ((hforks hforwarder).resolve_left hno) hfork

/-- **Classification of requests.**  A packet is classified exactly if its question, where it
has one in scope, is kept distinct from the domain. -/
theorem Config.classifies_iff (buffer : Bytes) (s : Config) :
    s.Classifies buffer ↔ s.Distinct buffer := by
  constructor
  · rintro ⟨a, ha, hown, hforward⟩ labels hasks hdomain hwild
    obtain ⟨tail, queryLength, hanswer⟩ := hasks.answer_eq s
    obtain ⟨query, ⟨hempty, -⟩ | ⟨-, hstar, -⟩ | ⟨-, -, result, hcompared, hname⟩⟩ :=
      answerName_name hasks.isLabel tail queryLength s
    · exact absurd hempty hdomain
    · exact absurd hstar hwild
    rw [hanswer, hname] at ha
    cases hcompared with
    | overrun hover => cases ha
    | own hne hsame =>
      obtain rfl : Answer.ip query = a := Except.ok.inj ha
      have howns := owns_of_dotted hasks.isLabel hne hsame
      refine ⟨fun hover => ?_, fun ⟨hwww, hname⟩ => ?_, fun _ => .inl howns⟩
      · have hlen := hover.length_le
        rw [hsame, length_append, length_singleton] at hlen
        omega
      · rcases behindWww_cases labels with heq | ⟨l, heq, hl⟩
        · exact hwww heq
        · have hlen := congrArg length (hname.trans hsame.symm)
          rw [heq, dotted_cons l hne, ← heq, length_append, length_cons] at hlen
          omega
    | differs hfork hover hother =>
      refine ⟨hover, fun ⟨hwww, hname⟩ => ?_, fun _ => .inr hfork⟩
      obtain ⟨query, rfl⟩ := hown.mpr ⟨labels, hasks, owns_of_www hasks.isLabel hwww hname⟩
      rw [verdict, Except.ok.injEq] at ha
      split at ha <;> cases ha
    | ends hfork hover hother =>
      obtain rfl : Answer.error s.errorReplyCode (some query) = a := Except.ok.inj ha
      have hno : ¬ s.Owns labels := fun howns => by
        obtain ⟨query, hip⟩ := hown.mpr ⟨labels, hasks, howns⟩
        cases hip
      refine ⟨hover, fun ⟨hwww, hname⟩ => ?_, fun hforwarder => ?_⟩
      · exact hno (owns_of_www hasks.isLabel hwww hname)
      · cases hforward hforwarder labels hasks hno
  · intro hs
    have hok : ∃ a, answer buffer s = .ok a := by
      rcases answer_cases buffer s with ⟨labels, hasks⟩ | hignored | ⟨rcode, q, herror⟩
      · rcases hs.answer hasks with ⟨-, query, hip⟩ | ⟨-, -, a, ha, -⟩
        · exact ⟨_, hip⟩
        · exact ⟨a, ha⟩
      · exact ⟨_, hignored⟩
      · exact ⟨_, herror⟩
    obtain ⟨a, ha⟩ := hok
    refine ⟨a, ha, ⟨?_, ?_⟩, fun hforwarder labels hasks hno => ?_⟩
    · rintro ⟨query, rfl⟩
      rcases answer_cases buffer s with ⟨labels, hasks⟩ | hignored | ⟨rcode, q, herror⟩
      · rcases hs.answer hasks with ⟨howns, -⟩ | ⟨-, -, a, ha', hip⟩
        · exact ⟨labels, hasks, howns⟩
        · exact absurd (Except.ok.inj (ha'.symm.trans ha)) (hip query)
      · cases ha.symm.trans hignored
      · cases ha.symm.trans herror
    · rintro ⟨labels, hasks, howns⟩
      rcases hs.answer hasks with ⟨-, query, hip⟩ | ⟨hno, -⟩
      · exact ⟨query, Except.ok.inj (ha.symm.trans hip)⟩
      · exact absurd howns hno
    · rcases hs.answer hasks with ⟨howns, -⟩ | ⟨-, hforward, -⟩
      · exact absurd howns hno
      · exact Except.ok.inj (ha.symm.trans (hforward hforwarder))

/-- A forwarder whose domain is "a.b" is asked for "a". -/
theorem Config.not_classifies : ¬ ∀ (buffer : Bytes) (s : Config), s.Classifies buffer := by
  intro h
  obtain ⟨a, ha, -, hforward⟩ := h [1, 2, 1, 0, 0, 1, 0, 0, 0, 0, 0, 0, 1, 97, 0, 0, 1, 0, 1]
    ⟨[97, 46, 98], .nonExistentDomain, true⟩
  have hasks : Asks [1, 2, 1, 0, 0, 1, 0, 0, 0, 0, 0, 0, 1, 97, 0, 0, 1, 0, 1] [[97]] :=
    ⟨by decide, by simp [IsLabel], 1, 2, 1, 0, 1, 1, [], rfl, rfl, .inl rfl, .inl rfl, rfl⟩
  have hno : ¬ Config.Owns [[97]] ⟨[97, 46, 98], .nonExistentDomain, true⟩ := by
    rintro (hstar | ⟨-, hname | ⟨l, ls, hlabels, hwww, -⟩⟩)
    · exact absurd hstar (by decide)
    · exact absurd hname (by decide)
    · obtain ⟨rfl, -⟩ := cons.inj hlabels
      exact absurd hwww (by decide)
  rw [hforward rfl _ hasks hno] at ha
  exact absurd ha (by decide)

end Dns
