import RalioFirmware.Http.ChunkedReader

/-!
# From the server to the client in chunks

What the server sends of a response in chunks, the client reads as the contents of these
chunks, whatever bytes they are of.  It does not read the line end behind the last chunk:
that is left for `disconnect`, which takes what is at hand by then.
-/

namespace Http

open List

/-! ## What the server sends -/

theorem sizeLine_printHex {n : Nat} (hn : n < 2147483648) : SizeLine n (printHex n ++ [13]) :=
  ⟨printHex n, printHex_ne_nil n, fun _ => isxdigit_printHex, hexValue_printHex n, hn, rfl⟩

def Chunk.ofContent (content : Text) : Chunk := ⟨printHex content.length ++ [13], content⟩

theorem Chunk.taken_ofContent {content : Text} (hne : content ≠ [])
    (hlen : content.length < 2147483648) : (Chunk.ofContent content).Taken :=
  have hline := sizeLine_printHex hlen
  ⟨hline.line_free, hne, hline.strtolHex_trim.symm⟩

theorem Chunk.content_ofContent (contents : List Text) :
    Chunk.content (contents.map Chunk.ofContent) = contents.flatten := by
  rw [Chunk.content, flatMap_map, flatten_eq_flatMap]
  rfl

namespace Response

variable {r : Response}

/-- A response to a request of HTTP/1.1 that is no HEAD, of which no content has been sent. -/
structure Fresh (r : Response) : Prop where
  version : r.currentVersion ≠ 0
  method : r.isHead = false
  sent : r.sent = []

theorem content_length_of_small {n : Nat} (hn : n < 2147483648) :
    (max 0 (int32 n)).toNat = n := by
  rw [int32_of_small (by omega) (by omega)]
  omega

/-- **A content is sent** as a chunk. -/
theorem sendContent_chunked (hchunked : r.chunked = true) (hmethod : r.isHead = false)
    {content : Text} (hne : content ≠ []) (hlen : content.length < 2147483648) :
    r.sendContent content = { r with sent := r.sent ++ (Chunk.ofContent content).bytes } := by
  have hpos := length_pos_iff.mpr hne
  rw [sendContent, if_neg (by simp [hmethod])]
  simp only [content_length_of_small hlen, hchunked, if_true, take_length, Bool.true_and]
  rw [decide_eq_true (show content.length ≠ 0 by omega)]
  simp [Chunk.bytes, Chunk.ofContent, crlf]

theorem foldl_sendContent (hmethod : r.isHead = false) (hchunked : r.chunked = true)
    {contents : List Text} (hne : ∀ content ∈ contents, content ≠ [])
    (hlen : ∀ content ∈ contents, content.length < 2147483648) :
    contents.foldl (fun r content => r.sendContent content) r =
      { r with sent := r.sent ++ (contents.map Chunk.ofContent).flatMap Chunk.bytes } := by
  induction contents generalizing r with
  | nil => simp
  | cons content contents ih =>
    obtain ⟨hne, hnes⟩ := forall_mem_cons.mp hne
    obtain ⟨hlen, hlens⟩ := forall_mem_cons.mp hlen
    rw [foldl_cons, sendContent_chunked hchunked hmethod hne hlen,
      ih (r := { r with sent := r.sent ++ (Chunk.ofContent content).bytes }) hmethod hchunked
        hnes hlens, map_cons, flatMap_cons, append_assoc]

/-- **A response in chunks**, up to its end. -/
theorem respond_sent (hr : r.Fresh) {contents : List Text}
    (hne : ∀ content ∈ contents, content ≠ [])
    (hlen : ∀ content ∈ contents, content.length < 2147483648) :
    (r.respond contents).sent =
      (contents.map Chunk.ofContent).flatMap Chunk.bytes ++
        ((printHex 0 ++ [13]) ++ 10 :: crlf) := by
  have hstart : r.start = { r with contentLength := .unknown, chunked := true } := by
    simp [start, setContentLength, prepareHeader, hr.version]
  rw [respond, hstart, foldl_sendContent
    (r := { r with contentLength := .unknown, chunked := true }) hr.method rfl hne hlen,
    sendContent, if_neg (by simp [hr.method])]
  simp [hr.sent, crlf, int32]

end Response

/-! ## What the client reads -/

namespace HTTPClient

def cleared (coming : Text) (closes : Bool) : HTTPClient := ⟨coming, closes, -1⟩

theorem agrees_cleared {coming last : Text} {closes : Bool} {length : Nat}
    (h : strtolHex last.trim = 0) : (cleared coming closes).Agrees length last := by
  rw [Agrees, if_pos (show (cleared coming closes).size ≤ 0 from Int.negSucc_le_zero 0)]
  exact h

/-- **A response in chunks is read** up to the line of the last chunk. -/
theorem writeToPrint_respond {r : Response} (hr : r.Fresh) {contents : List Text}
    (hne : ∀ content ∈ contents, content ≠ []) (hsmall : contents.flatten.length < 2147483648)
    (rest : Text) (closes : Bool) (atHand : Nat) :
    (cleared ((r.respond contents).sent ++ rest) closes).writeToPrint atHand =
      some ⟨contents.flatten.length, contents.flatten, (crlf ++ rest).drop atHand⟩ := by
  have hlen : ∀ content ∈ contents, content.length < 2147483648 := fun content hcontent =>
    Nat.lt_of_le_of_lt (List.Sublist.length_le (sublist_flatten_of_mem hcontent)) hsmall
  have hline := sizeLine_printHex (show 0 < 2147483648 by omega)
  have hzero : strtolHex (Text.trim (printHex 0 ++ [13])) = 0 := hline.strtolHex_trim
  have hdivided : Divided ((r.respond contents).sent ++ rest) (contents.map Chunk.ofContent)
      (printHex 0 ++ [13]) (10 :: (crlf ++ rest)) := by
    refine ⟨?_, ?_, ⟨by simp, hline.line_free, .inr rfl, Int.le_of_eq hzero⟩⟩
    · intro k hk
      obtain ⟨content, hcontent, rfl⟩ := mem_map.mp hk
      exact Chunk.taken_ofContent (hne content hcontent) (hlen content hcontent)
    · rw [Response.respond_sent hr hne hlen]
      simp
  rw [writeToPrint_divided hdivided, Chunk.content_ofContent,
    if_pos (agrees_cleared hzero), int32_of_small (by omega) (by omega), tail_cons]

theorem writeToPrint_returned_lt {c : HTTPClient} {atHand : Nat} {out : Outcome}
    (h : c.writeToPrint atHand = some out) : out.returned < 2147483648 := by
  rcases c.writeToPrint_cases atHand with ⟨chunks, last, rest, hdivided⟩ | ⟨out', hout, hneg⟩
  · rw [writeToPrint_divided hdivided, Option.some.injEq] at h
    rw [← h]
    by_cases hagrees : c.Agrees (Chunk.content chunks).length last
    · rw [if_pos hagrees]
      have hlt := (int32_bounds (Chunk.content chunks).length).2
      simpa only using hlt
    · rw [if_neg hagrees]
      exact (show errorStreamWrite < 2147483648 by decide)
  · rw [hout, Option.some.injEq] at h
    subst h
    omega

theorem drop_crlf_eq {rest : Text} {n : Nat} :
    (crlf ++ rest).drop n = rest ↔ n = 2 ∨ (rest = [] ∧ 2 ≤ n) := by
  constructor
  · intro h
    have hlen := congrArg length h
    rw [length_drop, length_append, show crlf.length = 2 from rfl] at hlen
    rcases Nat.eq_zero_or_pos rest.length with hzero | hpos
    · exact .inr ⟨length_eq_zero_iff.mp hzero, by omega⟩
    · exact .inl (by omega)
  · rintro (rfl | ⟨rfl, hn⟩)
    · rfl
    · exact drop_eq_nil_iff.mpr hn

/-- **Chunked transfer.**  The client writes the contents that the server sends, returns their
length, and has read what was sent of them and nothing else, exactly if an `int` holds the
length, and just the line end behind the last chunk is at hand when its line has been read. -/
theorem writeToPrint_respond_iff {r : Response} (hr : r.Fresh) {contents : List Text}
    (hne : ∀ content ∈ contents, content ≠ []) (rest : Text) (closes : Bool) (atHand : Nat) :
    (∃ out, (cleared ((r.respond contents).sent ++ rest) closes).writeToPrint atHand = some out ∧
      out.returned = contents.flatten.length ∧ out.written = contents.flatten ∧
        out.left = rest) ↔
    contents.flatten.length < 2147483648 ∧ (atHand = 2 ∨ (rest = [] ∧ 2 ≤ atHand)) := by
  constructor
  · rintro ⟨out, hout, hreturned, -, hleft⟩
    have hsmall : contents.flatten.length < 2147483648 := by
      have hlt := writeToPrint_returned_lt hout
      omega
    rw [writeToPrint_respond hr hne hsmall, Option.some.injEq] at hout
    subst hout
    exact ⟨hsmall, drop_crlf_eq.mp hleft⟩
  · rintro ⟨hsmall, htaken⟩
    exact ⟨_, writeToPrint_respond hr hne hsmall rest closes atHand, rfl, rfl,
      drop_crlf_eq.mpr htaken⟩

def get : Response := ⟨1, false, .notSet, false, []⟩

/-- One content, with all of the response at hand. -/
theorem writeToPrint_respond_iff_hello :
    get.Fresh ∧ (∃ out, (cleared ((get.respond [text "hello"]).sent ++ []) false).writeToPrint 2 =
      some out ∧ out.returned = 5 ∧ out.written = text "hello" ∧ out.left = []) := by
  have hfresh : get.Fresh := ⟨by decide, rfl, rfl⟩
  have hne : ∀ content ∈ [text "hello"], content ≠ [] := by decide
  exact ⟨hfresh, (writeToPrint_respond_iff hfresh hne [] false 2).mpr ⟨by decide, .inl rfl⟩⟩

/-- The line end behind the last chunk comes late, and is left to be read. -/
theorem not_writeToPrint_respond :
    ¬ ∀ (r : Response), r.Fresh → ∀ contents : List Text, (∀ content ∈ contents, content ≠ []) →
      ∀ (closes : Bool) (atHand : Nat), ∃ out,
        (cleared (r.respond contents).sent closes).writeToPrint atHand = some out ∧
          out.returned = contents.flatten.length ∧ out.written = contents.flatten ∧
            out.left = [] := by
  intro h
  have hfresh : get.Fresh := ⟨by decide, rfl, rfl⟩
  have hne : ∀ content ∈ [text "hello"], content ≠ [] := by decide
  obtain ⟨out, hout, -, -, hleft⟩ := h get hfresh [text "hello"] hne false 0
  have hrun := writeToPrint_respond hfresh hne (by decide) [] false 0
  rw [append_nil, hout, Option.some.injEq] at hrun
  rw [hrun] at hleft
  cases hleft

end HTTPClient

end Http
