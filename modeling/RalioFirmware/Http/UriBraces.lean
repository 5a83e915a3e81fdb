import RalioFirmware.Http.ArgPieces
import RalioFirmware.Http.DigestAuth

/-!
# Routes with path arguments

`UriBraces` matches a URI with a pattern in which each `{}` stands for an
argument.  It never goes back: an argument ends where the character behind its
`{}` is found first, and the last one, if nothing follows it, at the end of the
URI, where it may not contain a `/`.

So it finds exactly the arguments that do not contain the character behind
their `{}`.
-/

namespace Http

open CString List

/-- The loop of `UriBraces::canHandle`, from a place of the pattern and one of
the URI on. -/
def bracesLoop (requestUri : Text) : Text → Nat → List Text → Bool × List Text
  | [], requestUriIndex, pathArgs => (decide (requestUriIndex ≥ requestUri.length), pathArgs)
  | uriChar :: rest, requestUriIndex, pathArgs =>
    if uriChar = requestUri.charAt requestUriIndex then
      bracesLoop requestUri rest (requestUriIndex + 1) pathArgs
    else if uriChar ≠ 123 then (false, pathArgs)
    else match rest with
      | _ :: charEnd :: rest =>
        if requestUri.indexOf charEnd requestUriIndex < 0 then (false, pathArgs)
        else
          let uriIndex := (requestUri.indexOf charEnd requestUriIndex).toNat
          bracesLoop requestUri rest (uriIndex + 1)
            (pathArgs ++ [requestUri.substring requestUriIndex uriIndex])
      | _ =>
        let arg := requestUri.substring requestUriIndex requestUri.length
        (decide (arg.indexOfText (text "/") 0 = -1), pathArgs ++ [arg])

/-- `UriBraces::canHandle`, with what is left in the path arguments. -/
def canHandle (uri requestUri : Text) (pathArgs : List Text) : Bool × List Text :=
  if uri.equals requestUri then (true, pathArgs) else bracesLoop requestUri uri 0 []

def pathArgsAfter (uri : Text) (earlier : List Text) : List Text :=
  earlier.foldl (fun pathArgs requestUri => (canHandle uri requestUri pathArgs).2) []

/-! ## Patterns -/

/-- A pattern is made of characters and of places for arguments. -/
inductive Token
  | char (c : UInt8)
  | hole
deriving DecidableEq

def tokens : Text → List Token
  | [] => []
  | [c] => [.char c]
  | c :: d :: rest =>
    if c = 123 ∧ d = 125 then .hole :: tokens rest else .char c :: tokens (d :: rest)

def fill : List Token → List Text → Option Text
  | [], [] => some []
  | [], _ :: _ => none
  | .char c :: ts, args => (fill ts args).map (c :: ·)
  | .hole :: _, [] => none
  | .hole :: ts, arg :: args => (fill ts args).map (arg ++ ·)

/-- The character that an argument in front of a pattern may not contain. -/
def stopChar : List Token → Option UInt8
  | [] => some 47
  | .char c :: _ => some c
  | .hole :: _ => none

/-- No argument contains the character that follows it, nor a `/` if none
does. -/
def Delimited : List Token → List Text → Prop
  | [], _ => True
  | .char _ :: ts, args => Delimited ts args
  | .hole :: _, [] => True
  | .hole :: ts, arg :: args => (∀ c ∈ stopChar ts, c ∉ arg) ∧ Delimited ts args

/-- Every brace belongs to a `{}`, and no two of them stand side by side. -/
def spaced : List Token → Bool
  | [] => true
  | .char c :: ts => c ≠ 123 && spaced ts
  | .hole :: ts => ts.head? ≠ some .hole && spaced ts

def segmented : List Token → Bool
  | [] => true
  | .char _ :: ts => segmented ts
  | .hole :: ts => stopChar ts = some 47 && segmented ts

/-- Arguments that make the URI of the pattern and end where they must. -/
def Cut (ts : List Token) (uri : Text) (args : List Text) : Prop :=
  fill ts args = some uri ∧ Delimited ts args

variable {uri pattern : Text}

section

variable {ts : List Token} {v : Text} {args : List Text} {c : UInt8}

theorem cut_nil : Cut [] v args ↔ args = [] ∧ v = [] := by
  cases args with
  | nil => simp [Cut, fill, Delimited, eq_comm]
  | cons a args => simp [Cut, fill]

theorem cut_char : Cut (.char c :: ts) v args ↔ ∃ v', v = c :: v' ∧ Cut ts v' args := by
  rw [Cut, fill, Delimited, Option.map_eq_some_iff]
  constructor
  · rintro ⟨⟨v', hfill, rfl⟩, hd⟩
    exact ⟨v', rfl, hfill, hd⟩
  · rintro ⟨v', rfl, hfill, hd⟩
    exact ⟨⟨v', hfill, rfl⟩, hd⟩

theorem cut_hole_char : Cut (.hole :: .char c :: ts) v args ↔
    ∃ a v' as, args = a :: as ∧ v = a ++ c :: v' ∧ c ∉ a ∧ Cut ts v' as := by
  cases args with
  | nil => simp [Cut, fill]
  | cons a as =>
    rw [Cut, fill, Delimited, Option.map_eq_some_iff]
    constructor
    · rintro ⟨⟨w, hfill, rfl⟩, hstop, hd⟩
      obtain ⟨v', rfl, hcut⟩ := cut_char.mp ⟨hfill, hd⟩
      exact ⟨a, v', as, rfl, rfl, hstop c rfl, hcut⟩
    · rintro ⟨a', v', as', heq, rfl, hc, hcut⟩
      obtain ⟨rfl, rfl⟩ := cons.inj heq
      obtain ⟨hfill, hd⟩ := cut_char.mpr ⟨v', rfl, hcut⟩
      refine ⟨⟨_, hfill, rfl⟩, fun e he => ?_, hd⟩
      obtain rfl := Option.some.inj he
      exact hc

theorem cut_hole_end : Cut [.hole] v args ↔ args = [v] ∧ 47 ∉ v := by
  cases args with
  | nil => simp [Cut, fill]
  | cons a as =>
    rw [Cut, fill, Delimited]
    cases as with
    | nil =>
      simp only [fill, Delimited, stopChar, Option.map_some, append_nil,
        Option.mem_some_iff, forall_eq', and_true, Option.some.injEq, cons.injEq]
      exact and_congr_right fun h => by rw [h]
    | cons b bs => simp [fill]

theorem tokens_char (hc : c ≠ 123) (rest : Text) : tokens (c :: rest) = .char c :: tokens rest := by
  cases rest with
  | nil => rfl
  | cons d rest => rw [tokens, if_neg fun h => hc h.1]

theorem tokens_brace {rest : Text} (h : spaced (tokens (123 :: rest)) = true) :
    ∃ rest', rest = 125 :: rest' ∧ tokens (123 :: rest) = .hole :: tokens rest' := by
  cases rest with
  | nil => exact absurd h (by decide)
  | cons d rest =>
    by_cases hd : d = 125
    · subst hd
      exact ⟨rest, rfl, if_pos ⟨rfl, rfl⟩⟩
    · rw [tokens, if_neg fun h => hd h.2, spaced] at h
      simp at h

theorem tokens_behind {rest : Text} (h : spaced (.hole :: tokens rest) = true) :
    rest = [] ∨ ∃ e rest', rest = e :: rest' ∧ e ≠ 123 ∧ tokens rest = .char e :: tokens rest' := by
  rw [spaced, Bool.and_eq_true, decide_eq_true_eq] at h
  obtain ⟨hhead, hspaced⟩ := h
  cases rest with
  | nil => exact .inl rfl
  | cons e rest =>
    by_cases he : e = 123
    · subst he
      obtain ⟨rest', -, htokens⟩ := tokens_brace hspaced
      rw [htokens] at hhead
      exact absurd rfl hhead
    · exact .inr ⟨e, rest, rfl, he, tokens_char he rest⟩

theorem tokens_stop {d e : UInt8} {rest : Text}
    (h : spaced (tokens (123 :: d :: e :: rest)) = true) :
    tokens (123 :: d :: e :: rest) = .hole :: .char e :: tokens rest ∧
      spaced (tokens rest) = true := by
  obtain ⟨rest', hrest, htokens⟩ := tokens_brace h
  obtain ⟨rfl, rfl⟩ := cons.inj hrest
  rw [htokens] at h ⊢
  obtain hnil | ⟨e, rest, heq, -, hbehind⟩ := tokens_behind h
  · cases hnil
  obtain ⟨rfl, rfl⟩ := cons.inj heq
  rw [hbehind, spaced, spaced, Bool.and_eq_true, Bool.and_eq_true] at h
  exact ⟨by rw [hbehind], h.2.2⟩

theorem strstr_single (hc : c ≠ 0) (s : Text) : strstr [c] s = strchr c s := by
  induction s with
  | nil => simp [strstr, strchr, hc]
  | cons b s ih =>
    rw [strstr, strchr]
    by_cases hb : b = 0
    · subst hb
      simp [Ne.symm hc]
    · rw [cstr_cons hb, ih, if_neg hb]
      by_cases hbc : b = c
      · simp [hbc]
      · simp [hbc, Ne.symm hbc]

variable {s : Text}

theorem strchr_none (hc : c ≠ 0) (hzero : 0 ∉ s) : strchr c s = none ↔ c ∉ s := by
  constructor
  · intro h hmem
    obtain ⟨front, back, rfl, hfront⟩ := eq_append_cons_of_mem hmem
    have hsome := (strchr_eq_some hc).mpr
      ⟨front, back, rfl, rfl, hfront, fun h0 => hzero (mem_append_left _ h0)⟩
    rw [h] at hsome
    cases hsome
  · intro h
    cases hfound : strchr c s with
    | none => rfl
    | some i =>
      obtain ⟨front, back, rfl, -⟩ := (strchr_eq_some hc).mp hfound
      exact absurd (mem_append_right _ mem_cons_self) h

theorem indexOfText_slash (hzero : 0 ∉ s) :
    s.indexOfText (text "/") 0 = -1 ↔ 47 ∉ s := by
  rw [← strchr_none (by decide) hzero, ← strstr_single (by decide), Text.indexOfText,
    drop_zero, show cstr (text "/") = [47] by decide]
  cases s with
  | nil => simp [strstr]
  | cons b s =>
    rw [if_neg (by simp)]
    cases strstr [47] (b :: s) <;> simp

variable {k : Nat}

theorem indexOf_cut (hc : c ≠ 0) (hzero : 0 ∉ uri.drop k) :
    (uri.indexOf c k < 0 ∧ c ∉ uri.drop k) ∨
      ∃ a v, uri.drop k = a ++ c :: v ∧ c ∉ a ∧ uri.indexOf c k = (k + a.length : Nat) := by
  rw [indexOf_eq hc]
  cases hfound : strchr c (uri.drop k) with
  | none => exact .inl ⟨by rw [indexAt_none]; decide, (strchr_none hc hzero).mp hfound⟩
  | some i =>
    obtain ⟨a, v, hsplit, rfl, ha, -⟩ := (strchr_eq_some hc).mp hfound
    exact .inr ⟨a, v, hsplit, ha, rfl⟩

variable {a : Text}

theorem cut_unique (hc : c ≠ 0) {a' v v' : Text} (hzero : 0 ∉ a ++ c :: v)
    (h : a ++ c :: v = a' ++ c :: v') (ha : c ∉ a) (ha' : c ∉ a') : a = a' ∧ v = v' := by
  have hfirst := (strchr_eq_some hc).mpr
    ⟨a, v, rfl, rfl, ha, fun h0 => hzero (mem_append_left _ h0)⟩
  have hfirst' := (strchr_eq_some hc).mpr
    ⟨a', v', h, rfl, ha', fun h0 => hzero (h ▸ mem_append_left _ h0)⟩
  obtain ⟨rfl, hrest⟩ := append_inj h (Option.some.inj (hfirst.symm.trans hfirst'))
  exact ⟨rfl, (cons.inj hrest).2⟩

theorem cut_first (hc : c ≠ 0) (hzero : 0 ∉ a ++ c :: v) (ha : c ∉ a) :
    Cut (.hole :: .char c :: ts) (a ++ c :: v) args ↔ ∃ as, args = a :: as ∧ Cut ts v as := by
  rw [cut_hole_char]
  constructor
  · rintro ⟨a', v', as, rfl, hsplit, ha', hcut⟩
    obtain ⟨rfl, rfl⟩ := cut_unique hc hzero hsplit ha ha'
    exact ⟨as, rfl, hcut⟩
  · rintro ⟨as, rfl, hcut⟩
    exact ⟨a, v, as, rfl, rfl, ha, hcut⟩

theorem drop_cut (h : uri.drop k = a ++ c :: v) :
    uri.substring k (k + a.length) = a ∧ uri.drop (k + a.length + 1) = v ∧
      k + a.length + 1 ≤ uri.length := by
  have hlen := congrArg length h
  rw [length_drop, length_append, length_cons] at hlen
  refine ⟨?_, ?_, by omega⟩
  · rw [substring_eq _ (Nat.le_add_right _ _), Nat.add_sub_cancel_left, h, take_left]
  · rw [Nat.add_assoc, ← drop_drop, h, ← drop_drop, drop_left]
    rfl

theorem drop_charAt (hk : k < uri.length) :
    uri.drop k = uri.charAt k :: uri.drop (k + 1) := by
  rw [drop_eq_getElem_cons hk, Text.charAt, getD_eq_getElem?_getD,
    getElem?_eq_getElem hk, Option.getD_some]

variable {p : Text}

/-- **The loop** finds the arguments that end where they must, if there are
any. -/
theorem bracesLoop_iff (hzero : 0 ∉ uri) (hbrace : 123 ∉ uri)
    (hp : 0 ∉ p) (hspaced : spaced (tokens p) = true) (hk : k ≤ uri.length)
    (args : List Text) (out : List Text) :
    bracesLoop uri p k args = (true, out) ↔
      ∃ as, Cut (tokens p) (uri.drop k) as ∧ out = args ++ as := by
  have hdrop : ∀ k, 0 ∉ uri.drop k := fun k h => hzero (mem_of_mem_drop h)
  fun_induction bracesLoop uri p k args with
  | case1 k args =>
    rw [Prod.mk.injEq, decide_eq_true_eq, tokens]
    simp only [cut_nil, drop_eq_nil_iff]
    constructor
    · rintro ⟨hge, rfl⟩
      exact ⟨[], ⟨rfl, hge⟩, (append_nil _).symm⟩
    · rintro ⟨as, ⟨rfl, hge⟩, rfl⟩
      exact ⟨hge, (append_nil _).symm⟩
  | case2 rest k args ih =>
    have hlt : k < uri.length := by
      refine Nat.lt_of_le_of_ne hk fun hend => hp ?_
      have hchar : uri.charAt k = 0 := by simp [Text.charAt, hend]
      rw [hchar]
      exact mem_cons_self
    have hcons := drop_charAt hlt
    have hchar : uri.charAt k ≠ 123 := by
      intro h
      rw [h] at hcons
      exact hbrace (mem_of_mem_drop (hcons ▸ mem_cons_self))
    rw [tokens_char hchar, spaced, Bool.and_eq_true] at hspaced
    refine (ih (fun h => hp (mem_cons_of_mem _ h)) hspaced.2 hlt).trans ?_
    rw [tokens_char hchar, hcons]
    simp only [cut_char, cons.injEq, true_and, exists_eq_left']
  | case3 c rest k args hc hne =>
    rw [tokens_char hne]
    refine iff_of_false (by simp) ?_
    rintro ⟨as, hcut, -⟩
    obtain ⟨v', hv, -⟩ := cut_char.mp hcut
    have hlt : k < uri.length := by
      by_contra hge
      rw [drop_eq_nil_of_le (by omega)] at hv
      cases hv
    rw [drop_charAt hlt] at hv
    exact hc (cons.inj hv).1.symm
  | case4 c k args hc hne d e rest hindex =>
    obtain rfl := not_not.mp hne
    rw [(tokens_stop hspaced).1]
    have he : e ≠ 0 := fun h => hp (by simp [h])
    refine iff_of_false (by simp) ?_
    rintro ⟨as, hcut, -⟩
    obtain ⟨a, v', as', -, hv, -⟩ := cut_hole_char.mp hcut
    rcases indexOf_cut he (hdrop k) with ⟨-, hnone⟩ | ⟨_, _, -, -, hsome⟩
    · grind
    · omega
  | case5 c k args hc hne d e rest hindex uriIndex ih =>
    obtain rfl := not_not.mp hne
    obtain ⟨htokens, hspaced'⟩ := tokens_stop hspaced
    rw [htokens]
    have he : e ≠ 0 := fun h => hp (by simp [h])
    rcases indexOf_cut he (hdrop k) with ⟨hnone, -⟩ | ⟨a, v, hv, ha, hsome⟩
    · exact absurd hnone hindex
    have huri : uriIndex = k + a.length := by
      show (uri.indexOf e k).toNat = _
      omega
    obtain ⟨harg, hrest, hle⟩ := drop_cut hv
    rw [huri] at ih ⊢
    refine (ih (fun h => hp (by simp [h])) hspaced' hle).trans ?_
    rw [harg, hrest, hv]
    simp only [cut_first he (hv ▸ hdrop k) ha]
    constructor
    · grind
    · rintro ⟨_, ⟨as, rfl, hcut⟩, rfl⟩
      exact ⟨as, hcut, by simp⟩
  | case6 c rest k args hc hne arg hlast =>
    obtain rfl := not_not.mp hne
    obtain ⟨rest', rfl, htokens⟩ := tokens_brace hspaced
    have hnil : rest' = [] := by
      cases rest' with
      | nil => rfl
      | cons e rest' => exact (hlast _ _ _ rfl).elim
    subst hnil
    have harg : arg = uri.drop k := by
      show uri.substring k uri.length = _
      rw [substring_eq _ hk, take_of_length_le (by rw [length_drop])]
    rw [htokens, harg, Prod.mk.injEq, decide_eq_true_eq, indexOfText_slash (hdrop k), tokens]
    simp only [cut_hole_end]
    constructor
    · rintro ⟨hslash, rfl⟩
      exact ⟨_, ⟨rfl, hslash⟩, rfl⟩
    · rintro ⟨as, ⟨rfl, hslash⟩, rfl⟩
      exact ⟨hslash, rfl⟩

theorem Cut.slash_free (h : Cut ts v args) (hsegmented : segmented ts = true) :
    ∀ arg ∈ args, 47 ∉ arg := by
  induction ts generalizing v args with
  | nil =>
    obtain ⟨rfl, -⟩ := cut_nil.mp h
    exact fun _ harg => absurd harg not_mem_nil
  | cons t ts ih =>
    cases t with
    | char c =>
      obtain ⟨v', -, h'⟩ := cut_char.mp h
      exact ih h' hsegmented
    | hole =>
      rw [segmented, Bool.and_eq_true, decide_eq_true_eq] at hsegmented
      obtain ⟨hstop, hsegmented⟩ := hsegmented
      obtain ⟨hfill, hd⟩ := h
      cases args with
      | nil => exact fun _ harg => absurd harg not_mem_nil
      | cons a as =>
        obtain ⟨w, hw, -⟩ := Option.map_eq_some_iff.mp hfill
        intro arg harg
        rcases mem_cons.mp harg with rfl | harg
        · exact hd.1 47 hstop
        · exact ih ⟨hw, hd.2⟩ hsegmented arg harg

/-! ## Patterns without arguments -/

theorem bracesLoop_literal (hp : 123 ∉ p) (k : Nat) (args : List Text) :
    (bracesLoop uri p k args).2 = args := by
  induction p generalizing k with
  | nil => rfl
  | cons c rest ih =>
    obtain ⟨hc, hrest⟩ := not_or.mp (mem_cons.not.mp hp)
    rw [bracesLoop.eq_def]
    dsimp only
    split
    · exact ih hrest (k + 1)
    · rw [if_pos (Ne.symm hc)]

theorem pathArgsAfter_literal (hp : 123 ∉ pattern) (earlier : List Text) :
    pathArgsAfter pattern earlier = [] := by
  have hkeeps : ∀ uri, (canHandle pattern uri []).2 = [] := fun uri => by
    rw [canHandle]
    split
    · rfl
    · exact bracesLoop_literal hp 0 []
  rw [pathArgsAfter]
  induction earlier with
  | nil => rfl
  | cons uri earlier ih => rw [foldl_cons, hkeeps, ih]

theorem cut_literal (hp : 123 ∉ p) : Cut (tokens p) p [] := by
  induction p with
  | nil => exact cut_nil.mpr ⟨rfl, rfl⟩
  | cons c rest ih =>
    obtain ⟨hc, hrest⟩ := not_or.mp (mem_cons.not.mp hp)
    rw [tokens_char (Ne.symm hc)]
    exact cut_char.mpr ⟨rest, rfl, ih hrest⟩

end

/-! ## The match -/

theorem canHandle_cut (earlier : List Text)
    (hspaced : spaced (tokens pattern) = true) (hpattern : 0 ∉ pattern)
    (huri : 0 ∉ uri ∧ 123 ∉ uri) :
    ((canHandle pattern uri (pathArgsAfter pattern earlier)).1 = true →
      Cut (tokens pattern) uri (canHandle pattern uri (pathArgsAfter pattern earlier)).2) ∧
    ∀ args, Cut (tokens pattern) uri args →
      (canHandle pattern uri (pathArgsAfter pattern earlier)).1 = true := by
  rw [canHandle]
  by_cases heq : pattern.equals uri = true
  · obtain rfl := (Text.equals_iff (.inl hpattern)).mp heq
    rw [if_pos heq, pathArgsAfter_literal huri.2]
    exact ⟨fun _ => cut_literal huri.2, fun _ _ => rfl⟩
  · rw [if_neg heq]
    have hloop := bracesLoop_iff huri.1 huri.2 hpattern hspaced (Nat.zero_le _) []
    rw [drop_zero] at hloop
    constructor
    · intro h
      obtain ⟨as, hcut, has⟩ := (hloop (bracesLoop uri pattern 0 []).2).mp (Prod.ext h rfl)
      rwa [has]
    · intro args hcut
      rw [(hloop args).mpr ⟨args, hcut, rfl⟩]

end Http
