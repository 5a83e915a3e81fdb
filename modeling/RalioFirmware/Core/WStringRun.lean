import RalioFirmware.Core.WStringReplace

/-!
# Programs with Strings

Whatever a program does with its Strings, each of them is in order after every call,
as long as no call meets one of the few inputs on which a function forgets the NUL or
writes behind its buffer.  What is read of a `String` in order is a function of its
contents.
-/

namespace WString

open Word Bytes CString

namespace Str

variable {s t : Str}

/-- What the functions that read Strings come to, from the contents alone. -/
structure ReadsContents (s t : Str) : Prop where
  c_str : s.c_str = cstr s.contents
  compareTo : s.compareTo t = strcmp s.contents t.contents
  equals : s.equals t =
    decide (s.contents.length = t.contents.length ∧ strcmp s.contents t.contents = 0)
  equalsNull : s.equalsCstr none = (s.contents.isEmpty || s.contents.head? == some 0)
  equalsCstr : ∀ mem, s.equalsCstr (some mem) =
    if s.contents.isEmpty then (cstr mem).isEmpty else decide (strcmp s.contents mem = 0)
  toInt : s.toInt = atol s.contents
  indexOfChar : ∀ ch start, s.indexOfChar ch start =
    if start ≥ s.contents.length then none
    else (strchr ch (s.contents.drop start)).map (start + ·)
  indexOfCstr : ∀ mem start, s.indexOfCstr mem start =
    if start ≥ s.contents.length then none
    else (strstr (cstr mem) (s.contents.drop start)).map (start + ·)
  indexOf : ∀ start, s.indexOf t start =
    if start ≥ s.contents.length then none
    else (strstr (cstr t.contents) (s.contents.drop start)).map (start + ·)

theorem Inv.cstr_drop_buff (h : s.Inv) {start : Nat} (hstart : start ≤ s.len) :
    cstr (s.buff.drop start) = cstr (s.contents.drop start) := by
  rw [cstr_of_terminated (h.drop_nul hstart), contents, List.drop_take]

theorem Inv.strcmp_buff (h : s.Inv) (mem : List UInt8) :
    strcmp s.buff mem = strcmp s.contents mem := by
  rw [strcmp_cstr, h.cstr_buff, ← strcmp_cstr]

theorem Inv.contents_isEmpty (h : s.Inv) : s.contents.isEmpty = decide (s.len = 0) := by
  have hlen := h.contents_length
  cases hcons : s.contents with
  | nil =>
    grind
  | cons b rest =>
    grind

theorem Inv.indexOfCstr_eq (h : s.Inv) (mem : List UInt8) (start : Nat) :
    s.indexOfCstr mem start =
      if start ≥ s.contents.length then none
      else (strstr (cstr mem) (s.contents.drop start)).map (start + ·) := by
  unfold Str.indexOfCstr
  rw [h.contents_length]
  split
  · rfl
  · rename_i hstart
    rw [strstr_cstr, h.cstr_drop_buff (by omega), ← strstr_cstr]

/-- **What is read of a `String` in order depends on its contents only.** -/
theorem Inv.readsContents (h : s.Inv) (ht : t.Inv) : s.ReadsContents t where
  c_str := h.cstr_buff
  compareTo := by
    unfold Str.compareTo
    rw [h.strcmp_buff, strcmp_cstr, ht.cstr_buff, ← strcmp_cstr]
  equals := by
    unfold Str.equals Str.compareTo
    rw [h.contents_length, ht.contents_length, h.strcmp_buff, strcmp_cstr, ht.cstr_buff,
      ← strcmp_cstr]
  equalsNull := by
    unfold Str.equalsCstr
    rw [h.contents_isEmpty]
    by_cases hlen : s.len = 0
    · simp [hlen]
    · have hget : s.contents.head? = s.buff[0]? := by
        rw [List.head?_eq_getElem?, contents, List.getElem?_take, if_pos (by omega)]
      rw [hget, List.getD_eq_getElem?_getD]
      cases hbuff : s.buff with
      | nil =>
        have := h.buff_length_lt
        rw [hbuff] at this
        exact absurd this (Nat.not_lt_zero _)
      | cons b rest =>
        simp [hlen]
        rfl
  equalsCstr mem := by
    simp only [Str.equalsCstr, h.strcmp_buff, h.contents_isEmpty, decide_eq_true_eq]
  toInt := by
    unfold Str.toInt
    rw [atol_cstr, h.cstr_buff, ← atol_cstr]
  indexOfChar ch start := by
    unfold Str.indexOfChar
    rw [h.contents_length]
    split
    · rfl
    · rename_i hstart
      rw [strchr_cstr, h.cstr_drop_buff (by omega), ← strchr_cstr]
  indexOfCstr := h.indexOfCstr_eq
  indexOf start := by
    unfold Str.indexOf
    rw [h.indexOfCstr_eq, Str.c_str, cstr_cstr, ht.cstr_buff]

end Str

namespace Call

/-- A condition on the `i`-th String. -/
def At (strings : List Str) (i : Nat) (p : Str → Prop) : Prop := ∀ s ∈ strings[i]?, p s

/-- A call that leaves every String in order: a size does not wrap, what is cleared reads
as empty already, and a replacement stays clear of NULs and of its own text. -/
def Fits (call : Call) (strings : List Str) : Prop :=
  match call.op with
  | .assignCstr i (some mem) => At strings i (·.Reservable (u32 (strlen mem)))
  | .concatCstr i (some mem) => At strings i (·.Joinable (u32 (strlen mem)))
  | .concatBytes i bytes => At strings i (·.Joinable (u32 bytes.length))
  | .reserve i size => At strings i (·.Reservable (u32 size))
  | .clear i => At strings i (·.Clearable)
  | .replace i find replace =>
    At strings i fun s =>
      match operand strings i find, operand strings i replace with
      | some f, some r => s.Replaceable f r
      | _, _ => True
  | _ => True

/-- Every call of a program fits in the state that it meets. -/
def AllFit : List Call → List Str → Prop
  | [], _ => True
  | call :: rest, strings =>
    call.Fits strings ∧
      match call.step strings with
      | some after => AllFit rest after
      | none => True

def InOrder (strings : List Str) : Prop := ∀ s ∈ strings, s.Inv

variable {strings : List Str} {env : Env}

theorem inOrder_append {s : Str} (h : InOrder strings) (hs : s.Inv) :
    InOrder (strings ++ [s]) := by
  intro t ht
  rcases List.mem_append.mp ht with ht | ht
  · exact h t ht
  · obtain rfl := List.mem_singleton.mp ht
    exact hs

theorem inOrder_set {s : Str} {i : Nat} (h : InOrder strings) (hs : s.Inv) :
    InOrder (strings.set i s) := by
  intro t ht
  rcases List.mem_or_eq_of_mem_set ht with ht | rfl
  · exact h t ht
  · exact hs

theorem inOrder_get {s : Str} {i : Nat} (h : InOrder strings) (hs : strings[i]? = some s) :
    s.Inv := h s (List.mem_of_getElem? hs)

theorem inOrder_update {f : Str → Str} {i : Nat} (h : InOrder strings)
    (hf : ∀ s, strings[i]? = some s → (f s).Inv) : InOrder (update strings i f) := by
  unfold update
  cases hget : strings[i]? with
  | none => exact h
  | some s => exact inOrder_set h (hf s hget)

theorem fresh_init_inv (env : Env) : ((fresh env).init env).Inv :=
  Str.init_inv (by simp [Str.ownBytes, fresh, Str.isSSO])

theorem constructCstr_inv (env : Env) (cstr : Option (List UInt8)) :
    (constructCstr env cstr).Inv := by
  cases cstr with
  | none => exact fresh_init_inv env
  | some mem => exact Str.copy_inv (fresh_init_inv env) (u32_lt _) (Or.inl rfl)

theorem constructOf_inv (env : Env) (c : UInt8) : (constructOf env c).Inv := by
  have hin : 0 + [c, 0].length ≤ (fresh env).buff.length := by simp [fresh]
  refine { size := ?_, block := ?_, bound := ?_, nul := ?_ }
  · exact (memcpy_length hin).trans (by simp [fresh, Str.capacity, Str.isSSO, constructOf])
  · intro h
    cases h
  · show 1 ≤ 10
    decide
  · show (memcpy (fresh env).buff 0 [c, 0])[1]? = some 0
    rw [memcpy_getElem? hin]
    rfl

theorem copy_string {s t : Str} (h : s.Inv) (ht : t.Inv) : (s.copy env t.buff t.len).Inv := by
  have hlt := Nat.lt_of_le_of_lt ht.bound ht.capacity_lt
  exact Str.copy_inv h (Nat.lt_trans hlt (by decide)) (Str.reservable_of_lt (by omega))

theorem strlen_char_le (c : UInt8) : strlen [c, 0] ≤ 1 := by
  by_cases hc : c = 0
  · subst hc
    decide
  · rw [strlen, cstr_cons hc]
    simp

theorem operand_inv {i j : Nat} {s : Str} {op : Str.Operand} (h : InOrder strings) (hs : s.Inv)
    (hop : operand strings i j = some op) : (op.str s).Inv := by
  unfold operand at hop
  split at hop
  · obtain rfl := Option.some.inj hop
    exact hs
  · obtain ⟨t, ht, rfl⟩ := Option.map_eq_some_iff.mp hop
    exact inOrder_get h ht

/-- **Every call that fits returns and leaves all Strings in order.** -/
theorem step_inOrder (call : Call) (h : InOrder strings) (hfit : call.Fits strings) :
    ∃ after, call.step strings = some after ∧ InOrder after := by
  obtain ⟨op, env⟩ := call
  cases op with
  | construct cstr => exact ⟨_, rfl, inOrder_append h (constructCstr_inv env cstr)⟩
  | constructChar c => exact ⟨_, rfl, inOrder_append h (constructOf_inv env c)⟩
  | constructCopy j =>
    cases hj : strings[j]? with
    | none => exact ⟨strings, by simp only [step, hj], h⟩
    | some t =>
      simp only [step, hj]
      exact ⟨_, rfl, inOrder_append h (copy_string (fresh_init_inv env) (inOrder_get h hj))⟩
  | constructMove j =>
    cases hj : strings[j]? with
    | none => exact ⟨strings, by simp only [step, hj], h⟩
    | some t =>
      have ht := inOrder_get h hj
      simp only [step, hj]
      exact ⟨_, rfl, inOrder_append (inOrder_set h (ht.init env)) ht⟩
  | assign i j =>
    cases hj : strings[j]? with
    | none => exact ⟨strings, by simp only [step, hj], h⟩
    | some t =>
      simp only [step, hj]
      split
      · exact ⟨_, rfl, h⟩
      · exact ⟨_, rfl, inOrder_update h fun s hs =>
          copy_string (inOrder_get h hs) (inOrder_get h hj)⟩
  | assignMove i j =>
    cases hi : strings[i]? with
    | none => exact ⟨strings, by simp only [step, hi], h⟩
    | some s =>
      cases hj : strings[j]? with
      | none => exact ⟨strings, by simp only [step, hi, hj], h⟩
      | some t =>
        have ht := inOrder_get h hj
        simp only [step, hi, hj]
        split
        · exact ⟨_, rfl, h⟩
        · exact ⟨_, rfl, inOrder_set (inOrder_set h ht) (ht.init env)⟩
  | assignCstr i cstr =>
    refine ⟨_, rfl, inOrder_update h fun s hs => Str.assignCstr_inv (inOrder_get h hs) ?_⟩
    rintro mem rfl
    exact hfit s hs
  | assignChar i c =>
    refine ⟨_, rfl, inOrder_update h fun s hs => Str.assignCstr_inv (inOrder_get h hs) ?_⟩
    intro mem hmem
    obtain rfl := Option.some.inj hmem
    have hlen := strlen_char_le c
    refine Str.reservable_of_lt ?_
    rw [u32_of_lt (Nat.lt_of_le_of_lt hlen (by decide))]
    omega
  | concat i j =>
    simp only [step]
    split
    · exact ⟨_, rfl, inOrder_update h fun s hs => Str.concatSelf_inv (inOrder_get h hs)⟩
    · cases hj : strings[j]? with
      | none => exact ⟨_, rfl, h⟩
      | some t =>
        exact ⟨_, rfl, inOrder_update h fun s hs => Str.concat_inv (inOrder_get h hs)
          ((inOrder_get h hs).joinable (inOrder_get h hj))⟩
  | concatCstr i cstr =>
    refine ⟨_, rfl, inOrder_update h fun s hs => Str.concatCstr_inv (inOrder_get h hs) ?_⟩
    rintro mem rfl
    exact hfit s hs
  | concatBytes i bytes =>
    exact ⟨_, rfl, inOrder_update h fun s hs =>
      Str.concat_inv (inOrder_get h hs) (hfit s hs)⟩
  | concatChar i c =>
    refine ⟨_, rfl, inOrder_update h fun s hs => Str.concat_inv (inOrder_get h hs) ?_⟩
    have hs := inOrder_get h hs
    have := Nat.lt_of_le_of_lt hs.bound hs.capacity_lt
    exact ⟨by omega, Str.reservable_of_lt (by omega)⟩
  | reserve i size =>
    exact ⟨_, rfl, inOrder_update h fun s hs =>
      Str.reserve_inv (inOrder_get h hs) (u32_lt _) (hfit s hs)⟩
  | clear i =>
    exact ⟨_, rfl, inOrder_update h fun s hs =>
      (Str.clear_inv_iff (inOrder_get h hs)).mpr (hfit s hs)⟩
  | remove i index count =>
    exact ⟨_, rfl, inOrder_update h fun s hs => Str.remove_inv (inOrder_get h hs) _ _⟩
  | replaceChar i find replace =>
    exact ⟨_, rfl, inOrder_update h fun s hs => Str.mapCstr_inv (inOrder_get h hs) _⟩
  | replace i find replace =>
    cases hi : strings[i]? with
    | none => exact ⟨strings, by simp only [step, hi], h⟩
    | some s =>
      have hs := inOrder_get h hi
      have hfit := hfit s hi
      cases hf : operand strings i find with
      | none => exact ⟨strings, by simp only [step, hi, hf], h⟩
      | some f =>
        cases hr : operand strings i replace with
        | none => exact ⟨strings, by simp only [step, hi, hf, hr], h⟩
        | some r =>
          rw [hf, hr] at hfit
          obtain ⟨t, ht, htinv⟩ := Str.replace_inv env hs (operand_inv h hs hf)
            (operand_inv h hs hr) hfit
          simp only [step, hi, hf, hr, ht]
          exact ⟨_, rfl, inOrder_set h htinv⟩
  | trim i => exact ⟨_, rfl, inOrder_update h fun s hs => Str.trim_inv (inOrder_get h hs)⟩
  | setCharAt i loc c =>
    exact ⟨_, rfl, inOrder_update h fun s hs => Str.setCharAt_inv (inOrder_get h hs) _ _⟩
  | toLowerCase i =>
    exact ⟨_, rfl, inOrder_update h fun s hs => Str.mapCstr_inv (inOrder_get h hs) _⟩
  | toUpperCase i =>
    exact ⟨_, rfl, inOrder_update h fun s hs => Str.mapCstr_inv (inOrder_get h hs) _⟩

theorem run_inOrder {calls : List Call} (h : InOrder strings) (hfit : AllFit calls strings) :
    ∃ after, run calls strings = some after ∧ InOrder after := by
  induction calls generalizing strings with
  | nil => exact ⟨strings, rfl, h⟩
  | cons call rest ih =>
    obtain ⟨next, hstep, hnext⟩ := step_inOrder call h hfit.1
    have hrest := hfit.2
    rw [hstep] at hrest
    obtain ⟨after, hrun, hafter⟩ := ih hnext hrest
    refine ⟨after, ?_, hafter⟩
    rw [run, hstep]
    exact hrun

/-- **A program whose calls fit keeps every `String` in order.**  It does not hang, the
length of each stays within the capacity with a NUL behind the last character, and what is
read of them depends on their contents only. -/
theorem run_terminated (calls : List Call) (hfit : AllFit calls []) :
    ∃ strings, run calls [] = some strings ∧
      ∀ s ∈ strings, (s.len ≤ s.capacity ∧ s.buff[s.len]? = some 0) ∧
        ∀ t ∈ strings, s.ReadsContents t := by
  obtain ⟨strings, hrun, h⟩ := run_inOrder (fun s hs => absurd hs (by simp)) hfit
  exact ⟨strings, hrun, fun s hs => ⟨⟨(h s hs).bound, (h s hs).nul⟩,
    fun t ht => (h s hs).readsContents (h t ht)⟩⟩

def granted (op : Op) : Call := ⟨op, true, Vector.replicate 11 0⟩

def doubled : List Call :=
  [granted (.construct (some [97, 98, 99])), granted (.construct (some [98])),
    granted (.construct (some [100, 101, 102, 103])), granted (.concat 0 0),
    granted (.replace 0 1 2), granted (.trim 0)]

theorem run_terminated_doubled :
    ∃ strings, run doubled [] = some strings ∧
      ∀ s ∈ strings, (s.len ≤ s.capacity ∧ s.buff[s.len]? = some 0) ∧
        ∀ t ∈ strings, s.ReadsContents t := by
  refine run_terminated doubled ⟨trivial, trivial, trivial, trivial, ?_, trivial, trivial⟩
  intro s hs
  obtain rfl : (⟨false, [97, 98, 99, 97, 98, 99, 0, 0, 0, 0, 0], 0, 6⟩ : Str) = s :=
    Option.some.inj hs
  have hfit : Str.Replaceable ⟨false, [97, 98, 99, 97, 98, 99, 0, 0, 0, 0, 0], 0, 6⟩
      (.other ⟨false, [98, 0, 0, 0, 0, 0, 0, 0, 0, 0, 0], 0, 1⟩)
      (.other ⟨false, [100, 101, 102, 103, 0, 0, 0, 0, 0, 0, 0], 0, 4⟩) := by
    decide +kernel
  exact hfit

def cleared : List Call := [granted (.construct (some [97, 98, 99])), granted (.clear 0)]

/-- A cleared `String` goes on with its old characters. -/
theorem not_run_terminated :
    ¬ ∀ (calls : List Call) (strings : List Str), run calls [] = some strings →
      ∀ s ∈ strings, s.len ≤ s.capacity ∧ s.buff[s.len]? = some 0 := by
  intro h
  have hrun : run cleared [] =
      some [⟨false, [97, 98, 99, 0, 0, 0, 0, 0, 0, 0, 0], 0, 0⟩] := by decide +kernel
  have := (h _ _ hrun _ List.mem_cons_self).2
  simp at this

end Call

end WString
