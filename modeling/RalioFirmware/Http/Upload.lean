import RalioFirmware.Basis.Delimiter
import RalioFirmware.Basis.Word
import RalioFirmware.Http.Text

/-!
# The content of an uploaded file

`_parseForm` hands the content of a file to the upload handler through a
buffer.  It compares what comes with the line that ends the content, and writes
what it has matched into the buffer once the comparison fails.

That line is printed from the boundary as a C string, into an array that has
room for all of its characters; behind a NUL the array keeps what the stack
held before.
-/

namespace Http

open CString Word List

inductive HTTPUploadStatus
  | fileStart
  | fileWrite
  | fileEnd
  | fileAborted
deriving DecidableEq

def HTTP_UPLOAD_BUFLEN : Nat := 2048

structure HTTPUpload where
  status : HTTPUploadStatus
  filename : Text
  name : Text
  type : Text
  totalSize : Nat
  currentSize : Nat
  contentLength : Nat
  buf : Text

def HTTPUpload.data (u : HTTPUpload) : Text := u.buf.take u.currentSize

/-- What comes from a client: a byte, or nothing for a while.  Behind the last
of it the client is not connected any more. -/
abbrev Client := List (Option UInt8)

namespace Client

def read : Client → Option UInt8 × Client
  | some b :: client => (some b, client)
  | client => (none, client)

def await : Client → Client
  | none :: client => await client
  | client => client

/-- `connected`, which also holds of a client that has sent something. -/
def connected (client : Client) : Bool := !client.isEmpty

def bytes (client : Client) : Text := client.filterMap id

end Client

def uploadReadByte (client : Client) : Option UInt8 × Client :=
  match client.read with
  | (none, client) => client.await.read
  | res => res

/-- An upload in progress, and what the upload handler was called with. -/
structure Uploading where
  upload : HTTPUpload
  calls : List HTTPUpload

namespace Uploading

/-- `_currentHandler->upload`, if the handler takes uploads. -/
def call (canUpload : Bool) (u : Uploading) : Uploading :=
  if canUpload then { u with calls := u.calls ++ [u.upload] } else u

def setStatus (status : HTTPUploadStatus) (u : Uploading) : Uploading :=
  { u with upload := { u.upload with status } }

/-- `totalSize += currentSize`. -/
def addSize (u : Uploading) : Uploading :=
  { u with upload := { u.upload with
      totalSize := u32 (u.upload.totalSize + u.upload.currentSize) } }

def clearSize (u : Uploading) : Uploading :=
  { u with upload := { u.upload with currentSize := 0 } }

/-- `buf[currentSize++] = b`. -/
def put (b : UInt8) (u : Uploading) : Uploading :=
  { u with upload := { u.upload with
      buf := u.upload.buf.set u.upload.currentSize b
      currentSize := u.upload.currentSize + 1 } }

/-- `_uploadWriteByte`. -/
def writeByte (canUpload : Bool) (b : UInt8) (u : Uploading) : Uploading :=
  if u.upload.currentSize = HTTP_UPLOAD_BUFLEN then
    ((u.call canUpload).addSize.clearSize).put b
  else u.put b

/-- `_uploadWriteByte` for one byte after the other. -/
def writeBytes (canUpload : Bool) : Text → Uploading → Uploading
  | [], u => u
  | b :: bs, u => writeBytes canUpload bs (u.writeByte canUpload b)

/-- What follows the content: the rest of the buffer, and the end. -/
def finish (canUpload : Bool) (u : Uploading) : Uploading :=
  ((u.call canUpload).addSize.setStatus .fileEnd).call canUpload

/-- `_parseFormUploadAborted`. -/
def aborted (canUpload : Bool) (u : Uploading) : Uploading :=
  (u.setStatus .fileAborted).call canUpload

end Uploading

/-- `fastBoundary`, in an array that held `stack`. -/
def fastBoundary (stack : Nat → UInt8) (boundary : Text) : Text :=
  (List.range (4 + boundary.length + 1)).map fun i =>
    (text "\r\n--" ++ cstr boundary ++ [0]).getD i (stack i)

/-- The loop that reads the content; the client behind it, if it comes to its
end. -/
def contentLoop (canUpload : Bool) (fastBoundary : Text) :
    Nat → Nat → Client → Uploading → Option Client × Uploading
  | 0, _, _, u => (none, u)
  | fuel + 1, boundaryPtr, client, u =>
    match uploadReadByte client with
    | (none, _) => (none, u)
    | (some b, client) =>
      if b = fastBoundary.charAt boundaryPtr then
        if boundaryPtr + 1 = fastBoundary.length - 1 then (some client, u)
        else contentLoop canUpload fastBoundary fuel (boundaryPtr + 1) client u
      else
        let u := u.writeBytes canUpload (fastBoundary.take boundaryPtr)
        if b = fastBoundary.charAt 0 then contentLoop canUpload fastBoundary fuel 1 client u
        else contentLoop canUpload fastBoundary fuel 0 client (u.writeByte canUpload b)

/-- `new HTTPUpload()`, with what is known of the file. -/
def newUpload (filename name type : Text) (len : Nat) : Uploading where
  upload :=
    { status := .fileStart, filename, name, type, totalSize := 0, currentSize := 0
      contentLength := len, buf := List.replicate HTTP_UPLOAD_BUFLEN 0 }
  calls := []

/-- What `_parseForm` does for a file behind its headers; the client behind the
boundary, unless it is given up. -/
def uploadFile (canUpload : Bool) (stack : Nat → UInt8) (boundary : Text) (u : Uploading)
    (client : Client) : Option Client × Uploading :=
  let u := (u.call canUpload).setStatus .fileWrite
  match contentLoop canUpload (fastBoundary stack boundary) (client.length + 1) 0 client u with
  | (none, u) => (none, u.aborted canUpload)
  | (some client, u) =>
    let u := u.finish canUpload
    if client.connected then (some client, u) else (none, u.aborted canUpload)

/-! ## Reading -/

theorem await_bytes (client : Client) : client.await.bytes = client.bytes := by
  induction client with
  | nil => rfl
  | cons x client ih =>
    cases x with
    | none => exact ih
    | some b => rfl

theorem await_length_le (client : Client) : client.await.length ≤ client.length := by
  induction client with
  | nil => exact Nat.le_refl _
  | cons x client ih =>
    cases x with
    | none => exact Nat.le_succ_of_le ih
    | some b => exact Nat.le_refl _

theorem uploadReadByte_eq (client : Client) : uploadReadByte client = client.await.read := by
  cases client with
  | nil => rfl
  | cons x client =>
    cases x with
    | none => rfl
    | some b => rfl

theorem uploadReadByte_none {client : Client} (h : client.bytes = []) :
    (uploadReadByte client).1 = none := by
  rw [← await_bytes] at h
  rw [uploadReadByte_eq]
  cases hc : client.await with
  | nil => rfl
  | cons x rest =>
    cases x with
    | none => rfl
    | some b =>
      rw [hc] at h
      cases h

theorem uploadReadByte_some {client : Client} {b : UInt8} {bs : Text}
    (h : client.bytes = b :: bs) :
    ∃ client', uploadReadByte client = (some b, client') ∧ client'.bytes = bs ∧
      client'.length < client.length := by
  have hle := await_length_le client
  rw [← await_bytes] at h
  rw [uploadReadByte_eq]
  induction client with
  | nil => cases h
  | cons x client ih =>
    cases x with
    | none =>
      obtain ⟨client', hread, hbytes, hlt⟩ := ih h (await_length_le client)
      exact ⟨client', hread, hbytes, Nat.lt_succ_of_lt hlt⟩
    | some c =>
      obtain ⟨rfl, hbytes⟩ := cons.inj (show c :: Client.bytes client = b :: bs from h)
      exact ⟨client, rfl, hbytes, Nat.lt_succ_self _⟩

/-! ## Writing -/

/-- What holds while the content is read: `data` of it has been written into
the buffer since the call at the start. -/
structure Kept (first : HTTPUpload) (data : Text) (u : Uploading) : Prop where
  status : u.upload.status = .fileWrite
  calls : ∃ writes, u.calls = first :: writes ∧
    (∀ c ∈ writes, c.status = .fileWrite ∧ c.currentSize ≤ HTTP_UPLOAD_BUFLEN) ∧
    writes.flatMap HTTPUpload.data ++ u.upload.data = data
  room : u.upload.buf.length = HTTP_UPLOAD_BUFLEN
  size : u.upload.currentSize ≤ HTTP_UPLOAD_BUFLEN
  total : u32 (u.upload.totalSize + u.upload.currentSize) = u32 data.length

namespace Kept

variable {first : HTTPUpload} {data : Text} {u : Uploading}

theorem put (h : Kept first data u) (hlt : u.upload.currentSize < HTTP_UPLOAD_BUFLEN)
    (b : UInt8) : Kept first (data ++ [b]) (u.put b) := by
  obtain ⟨writes, hcalls, hwrites, hdata⟩ := h.calls
  have hput : (u.put b).upload.data = u.upload.data ++ [b] := by
    have hroom := h.room
    show (u.upload.buf.set u.upload.currentSize b).take (u.upload.currentSize + 1) =
      u.upload.buf.take u.upload.currentSize ++ [b]
    rw [take_add_one, take_set_of_le (Nat.le_refl _),
      getElem?_set_self (by omega)]
    rfl
  refine ⟨h.status, ⟨writes, hcalls, hwrites, ?_⟩, ?_, hlt, ?_⟩
  · rw [hput, ← append_assoc, hdata]
  · exact length_set.trans h.room
  · have htotal := h.total
    rw [length_append, length_singleton]
    show u32 (u.upload.totalSize + (u.upload.currentSize + 1)) = _
    simp only [u32] at htotal ⊢
    omega

theorem flush (h : Kept first data u) :
    Kept first data ((u.call true).addSize.clearSize) := by
  obtain ⟨writes, hcalls, hwrites, hdata⟩ := h.calls
  refine ⟨h.status, ⟨writes ++ [u.upload], ?_, ?_, ?_⟩, h.room, Nat.zero_le _, ?_⟩
  · show u.calls ++ [u.upload] = _
    rw [hcalls]
    rfl
  · intro c hc
    rcases mem_append.mp hc with hc | hc
    · exact hwrites c hc
    · obtain rfl := mem_singleton.mp hc
      exact ⟨h.status, h.size⟩
  · rw [flatMap_append, flatMap_singleton]
    show _ ++ u.upload.buf.take 0 = data
    rw [take_zero, append_nil, hdata]
  · have htotal := h.total
    show u32 (u32 (u.upload.totalSize + u.upload.currentSize) + 0) = _
    rw [htotal]
    simp [u32]

theorem writeByte (h : Kept first data u) (b : UInt8) :
    Kept first (data ++ [b]) (u.writeByte true b) := by
  rw [Uploading.writeByte]
  split
  · exact h.flush.put (show 0 < HTTP_UPLOAD_BUFLEN by decide) b
  · next hfull => exact h.put (Nat.lt_of_le_of_ne h.size hfull) b

theorem writeBytes (h : Kept first data u) (bs : Text) :
    Kept first (data ++ bs) (u.writeBytes true bs) := by
  induction bs generalizing data u with
  | nil => rwa [append_nil]
  | cons b bs ih =>
    rw [append_cons]
    exact ih (h.writeByte b)

end Kept

/-! ## The loop -/

section

variable {first : HTTPUpload} {data : Text} {u : Uploading} {d : Text} {z : UInt8}

theorem charAt_delimiter {ptr : Nat} (hptr : ptr < d.length) (b : UInt8) :
    b = Text.charAt (d ++ [z]) ptr ↔ d[ptr]? = some b := by
  rw [Text.charAt, getD_eq_getElem?_getD, getElem?_append_left hptr,
    getElem?_eq_getElem hptr, Option.getD_some, Option.some.injEq, eq_comm]

theorem charAt_first (hd : d ≠ []) (b : UInt8) :
    b = Text.charAt (d ++ [z]) 0 ↔ d.head? = some b := by
  rw [charAt_delimiter (length_pos_iff.mpr hd), head?_eq_getElem?]

/-- **The loop is the matcher**, and what the matcher gives out is written. -/
theorem contentLoop_scan (hd : 1 < d.length) {fuel ptr : Nat} {client : Client}
    (hfuel : client.length < fuel) (hptr : ptr < d.length) (hu : Kept first data u) :
    (Delimiter.scan d ptr client.bytes = none →
      ∃ u' data', contentLoop true (d ++ [z]) fuel ptr client u = (none, u') ∧
        Kept first data' u') ∧
    ∀ out rest, Delimiter.scan d ptr client.bytes = some (out, rest) →
      ∃ client' u', contentLoop true (d ++ [z]) fuel ptr client u = (some client', u') ∧
        client'.bytes = rest ∧ Kept first (data ++ out) u' := by
  induction fuel generalizing ptr client data u with
  | zero => omega
  | succ fuel ih =>
    cases hbytes : client.bytes with
    | nil =>
      have hread := uploadReadByte_none hbytes
      rw [contentLoop]
      generalize uploadReadByte client = r at hread
      obtain ⟨res, client'⟩ := r
      obtain rfl : res = none := hread
      exact ⟨fun _ => ⟨u, data, rfl, hu⟩, fun _ _ h => (by cases h)⟩
    | cons b bs =>
      obtain ⟨client', hread, rfl, hlt⟩ := uploadReadByte_some hbytes
      -- The loop goes on with `held` bytes held back, having written `out₁`.
      have hgo : ∀ (out₁ : Text) (held : Nat) (u₁ : Uploading), held < d.length →
          Kept first (data ++ out₁) u₁ →
          ((Delimiter.scan d held client'.bytes).map (fun r => (out₁ ++ r.1, r.2)) = none →
            ∃ u' data', contentLoop true (d ++ [z]) fuel held client' u₁ = (none, u') ∧
              Kept first data' u') ∧
          ∀ out rest, (Delimiter.scan d held client'.bytes).map
              (fun r => (out₁ ++ r.1, r.2)) = some (out, rest) →
            ∃ c u', contentLoop true (d ++ [z]) fuel held client' u₁ = (some c, u') ∧
              c.bytes = rest ∧ Kept first (data ++ out) u' := by
        intro out₁ held u₁ hheld hu₁
        obtain ⟨hnone, hsome⟩ := ih (show client'.length < fuel by omega) hheld hu₁
        refine ⟨fun h => hnone (Option.map_eq_none_iff.mp h), fun out rest h => ?_⟩
        obtain ⟨⟨out₂, rest'⟩, hscan, hr⟩ := Option.map_eq_some_iff.mp h
        obtain ⟨rfl, rfl⟩ := Prod.mk.inj hr
        obtain ⟨c, u', hrun, hrest, hkept⟩ := hsome out₂ rest' hscan
        exact ⟨c, u', hrun, hrest, by rwa [← append_assoc]⟩
      have hlen : (d ++ [z]).length - 1 = d.length := by simp
      have htake : (d ++ [z]).take ptr = d.take ptr := take_append_of_le_length hptr.le
      have hne : d ≠ [] := ne_nil_of_length_pos (by omega)
      rw [contentLoop, hread, Delimiter.scan, Delimiter.step]
      simp only [charAt_delimiter hptr, charAt_first hne, hlen, htake]
      by_cases hmatch : d[ptr]? = some b
      · rw [if_pos hmatch, if_pos hmatch]
        dsimp only
        by_cases hlast : ptr + 1 = d.length
        · rw [if_pos hlast, if_pos hlast]
          refine ⟨fun h => (by cases h), fun out rest h => ?_⟩
          obtain ⟨rfl, rfl⟩ := Prod.mk.inj (Option.some.inj h)
          exact ⟨client', u, rfl, rfl, by rwa [append_nil]⟩
        · rw [if_neg hlast, if_neg hlast]
          exact hgo [] (ptr + 1) u (by omega) (by rwa [append_nil])
      · have hdump := hu.writeBytes (d.take ptr)
        rw [if_neg hmatch, if_neg hmatch]
        by_cases hhead : d.head? = some b
        · grind
        · rw [if_neg hhead, if_neg hhead]
          dsimp only
          rw [if_neg (show 0 ≠ d.length by omega)]
          exact hgo (d.take ptr ++ [b]) 0 _ (by omega)
            (by rw [← append_assoc]; exact hdump.writeByte b)

end

/-! ## The line that ends the content -/

def delimiter (boundary : Text) : Text := text "\r\n--" ++ boundary

/-- What the loop compares with: all of the array but its last byte. -/
def compared (stack : Nat → UInt8) (boundary : Text) : Text :=
  (List.range (4 + boundary.length)).map fun i =>
    (text "\r\n--" ++ cstr boundary ++ [0]).getD i (stack i)

/-- Behind a NUL of the boundary, the stack happens to hold the rest of it. -/
def Legible (stack : Nat → UInt8) (boundary : Text) : Prop :=
  ∀ i, (cstr boundary).length < i → i < boundary.length → stack (4 + i) = boundary.getD i 0

theorem legible_of_notMem (stack : Nat → UInt8) {boundary : Text} (hzero : 0 ∉ boundary) :
    Legible stack boundary := by
  intro i hlt hi
  rw [cstr_eq_self hzero] at hlt
  omega

theorem fastBoundary_eq (stack : Nat → UInt8) (boundary : Text) :
    ∃ z, fastBoundary stack boundary = compared stack boundary ++ [z] := by
  rw [fastBoundary, range_succ, map_append]
  exact ⟨_, rfl⟩

theorem compared_length (stack : Nat → UInt8) (boundary : Text) :
    (compared stack boundary).length = 4 + boundary.length := by
  rw [compared, length_map, length_range]

theorem map_getD_range (w : Text) (stack : Nat → UInt8) :
    (List.range w.length).map (fun i => w.getD i (stack i)) = w := by
  refine ext_getElem (by simp) fun i h _ => ?_
  rw [length_map, length_range] at h
  simp [getD_eq_getElem?_getD, h]

theorem map_getD_range_add (w : Text) (stack : Nat → UInt8) (n : Nat) :
    (List.range (w.length + n)).map (fun i => w.getD i (stack i)) =
      w ++ (List.range n).map fun k => stack (w.length + k) := by
  rw [range_add, map_append, map_getD_range, map_map]
  congr 1
  refine map_congr_left fun k _ => ?_
  simp [getD_eq_getElem?_getD]

theorem map_range_eq_iff (f : Nat → UInt8) (s : Text) :
    (List.range s.length).map f = s ↔ ∀ k < s.length, f k = s.getD k 0 := by
  constructor
  · intro h k hk
    have hget := congrArg (fun l => l[k]?) h
    simp only [getElem?_map, getElem?_range hk, Option.map_some] at hget
    rw [getD_eq_getElem?_getD, ← hget, Option.getD_some]
  · intro h
    refine ext_getElem (by simp) fun k hk hk' => ?_
    rw [getElem_map, getElem_range, h k hk', getD_eq_getElem?_getD,
      getElem?_eq_getElem hk', Option.getD_some]

theorem cstr_cases (s : Text) : s = cstr s ∨ ∃ rest, s = cstr s ++ 0 :: rest := by
  induction s with
  | nil => exact .inl rfl
  | cons b s ih =>
    by_cases hb : b = 0
    · subst hb
      exact .inr ⟨s, by rw [cstr_zero]; rfl⟩
    · rw [cstr_cons hb]
      rcases ih with h | ⟨rest, h⟩
      · exact .inl (congrArg _ h)
      · exact .inr ⟨rest, congrArg _ h⟩

/-- **The loop compares with the delimiter** where the boundary is legible. -/
theorem compared_eq_iff (stack : Nat → UInt8) (boundary : Text) :
    compared stack boundary = delimiter boundary ↔ Legible stack boundary := by
  have hfour : (text "\r\n--").length = 4 := by decide
  rcases cstr_cases boundary with hall | ⟨rest, hrest⟩
  · refine iff_of_true ?_ fun i hlt hi => ?_
    · rw [compared, ← hall, delimiter]
      conv_rhs => rw [← map_getD_range (text "\r\n--" ++ boundary) stack]
      rw [length_append, hfour]
      refine map_congr_left fun i hi => ?_
      rw [getD_eq_getElem?_getD, getD_eq_getElem?_getD, getElem?_append_left]
      rw [length_append, hfour]
      exact mem_range.mp hi
    · rw [← hall] at hlt
      omega
  · rw [Legible, compared, delimiter]
    generalize cstr boundary = c at hrest
    subst hrest
    have hw : (text "\r\n--" ++ c ++ [0]).length = 4 + c.length + 1 := by
      rw [length_append, length_append, hfour, length_singleton]
    have hlen : 4 + (c ++ 0 :: rest).length = (text "\r\n--" ++ c ++ [0]).length + rest.length := by
      grind
    rw [hlen, map_getD_range_add, append_cons c, ← append_assoc, ← append_assoc,
      append_right_inj, map_range_eq_iff, hw]
    constructor
    · intro h i hlt hi
      obtain ⟨k, rfl⟩ : ∃ k, i = c.length + 1 + k := ⟨i - c.length - 1, by omega⟩
      rw [length_append, length_append, length_singleton] at hi
      rw [← Nat.add_assoc, ← Nat.add_assoc, h k (by omega), getD_eq_getElem?_getD,
        getD_eq_getElem?_getD, getElem?_append_right (by simp)]
      simp
    · intro h k hk
      have hk' := h (c.length + 1 + k) (by omega)
        (by rw [length_append, length_append, length_singleton]; omega)
      rw [← Nat.add_assoc, ← Nat.add_assoc] at hk'
      rw [hk', getD_eq_getElem?_getD, getD_eq_getElem?_getD,
        getElem?_append_right (by simp)]
      simp

/-! ## The upload -/

/-- The upload handler is handed the content in pieces that fit the buffer, and
is told of the start, of the end, and there of the size. -/
structure Delivered (content : Text) (size : Nat) (calls : List HTTPUpload) : Prop where
  written : (calls.filter fun c => c.status = .fileWrite).flatMap HTTPUpload.data = content
  sized : ∀ c ∈ calls, c.currentSize ≤ HTTP_UPLOAD_BUFLEN
  total : ∀ c ∈ calls, c.status = .fileEnd → c.totalSize = size
  started : calls.countP (fun c => c.status = .fileStart) = 1
  ended : calls.countP (fun c => c.status = .fileEnd) = 1

/-- What the upload handler is owed for a file of this content. -/
def Faithful (content : Text) (calls : List HTTPUpload) : Prop :=
  Delivered content content.length calls

/-- A call of this status, with no more than the buffer holds. -/
def HTTPUpload.Fits (status : HTTPUploadStatus) (c : HTTPUpload) : Prop :=
  c.status = status ∧ c.currentSize ≤ HTTP_UPLOAD_BUFLEN

section

variable {first last : HTTPUpload} {writes behind calls : List HTTPUpload} {data : Text}
  {size : Nat} {u : Uploading} {status status' : HTTPUploadStatus}

theorem filter_status (h : ∀ c ∈ calls, c.Fits status) :
    (calls.filter fun c => c.status = status) = calls :=
  filter_eq_self.mpr fun c hc => decide_eq_true (h c hc).1

theorem filter_other (hne : status ≠ status') (h : ∀ c ∈ calls, c.Fits status) :
    (calls.filter fun c => c.status = status') = [] :=
  filter_eq_nil_iff.mpr fun c hc => by simpa [(h c hc).1] using hne

theorem countP_other (hne : status ≠ status') (h : ∀ c ∈ calls, c.Fits status) :
    (calls.countP fun c => c.status = status') = 0 := by
  rw [countP_eq_length_filter, filter_other hne h]
  rfl

theorem delivered_of_order (hfirst : first.Fits .fileStart)
    (hwrites : ∀ c ∈ writes, c.Fits .fileWrite) (hlast : last.Fits .fileEnd)
    (hbehind : ∀ c ∈ behind, c.Fits .fileAborted) (hsize : last.totalSize = size)
    (hdata : writes.flatMap HTTPUpload.data = data) :
    Delivered data size (first :: (writes ++ last :: behind)) := by
  have hstart := hfirst.1
  have hend := hlast.1
  have hmem : ∀ c ∈ first :: (writes ++ last :: behind),
      c = first ∨ c ∈ writes ∨ c = last ∨ c ∈ behind := fun c hc => by
    simpa [mem_append] using hc
  refine ⟨?_, fun c hc => ?_, fun c hc hstatus => ?_, ?_, ?_⟩
  · rw [filter_cons_of_neg (by simp [hstart]), filter_append, filter_status hwrites,
      filter_cons_of_neg (by simp [hend]), filter_other (by decide) hbehind,
      append_nil, hdata]
  · rcases hmem c hc with rfl | hc | rfl | hc
    · exact hfirst.2
    · exact (hwrites c hc).2
    · exact hlast.2
    · exact (hbehind c hc).2
  · rcases hmem c hc with rfl | hc | rfl | hc
    · rw [hstart] at hstatus
      cases hstatus
    · rw [(hwrites c hc).1] at hstatus
      cases hstatus
    · exact hsize
    · rw [(hbehind c hc).1] at hstatus
      cases hstatus
  · rw [countP_cons_of_pos (by simp [hstart]), countP_append,
      countP_other (by decide) hwrites, countP_cons_of_neg (by simp [hend]),
      countP_other (by decide) hbehind]
  · rw [countP_cons_of_neg (by simp [hstart]), countP_append,
      countP_other (by decide) hwrites, countP_cons_of_pos (by simp [hend]),
      countP_other (by decide) hbehind]

theorem Kept.finish (h : Kept first data u) (hfirst : first.Fits .fileStart) :
    Delivered data (u32 data.length) (u.finish true).calls ∧
      Delivered data (u32 data.length) ((u.finish true).aborted true).calls := by
  obtain ⟨writes, hcalls, hwrites, hdata⟩ := h.calls
  have hwrote : ∀ c ∈ writes ++ [u.upload], c.Fits .fileWrite := fun c hc => by
    rcases mem_append.mp hc with hc | hc
    · exact hwrites c hc
    · obtain rfl := mem_singleton.mp hc
      exact ⟨h.status, h.size⟩
  have hall : (writes ++ [u.upload]).flatMap HTTPUpload.data = data := by
    rw [flatMap_append, flatMap_singleton, hdata]
  have hlast : (u.addSize.setStatus .fileEnd).upload.Fits .fileEnd := ⟨rfl, h.size⟩
  have hfinish : (u.finish true).calls =
      first :: (writes ++ [u.upload] ++ [(u.addSize.setStatus .fileEnd).upload]) := by
    show u.calls ++ [u.upload] ++ _ = _
    rw [hcalls]
    rfl
  have haborted : ((u.finish true).aborted true).calls =
      first :: (writes ++ [u.upload] ++ [(u.addSize.setStatus .fileEnd).upload,
        (u.addSize.setStatus .fileAborted).upload]) := by
    show (u.finish true).calls ++ _ = _
    rw [hfinish, cons_append, append_assoc _ [_] [_]]
    rfl
  rw [haborted, hfinish]
  refine ⟨delivered_of_order hfirst hwrote hlast (fun c hc => absurd hc not_mem_nil)
    h.total hall, delivered_of_order hfirst hwrote hlast (fun c hc => ?_) h.total hall⟩
  obtain rfl := mem_singleton.mp hc
  exact ⟨rfl, h.size⟩

theorem Kept.aborted_ended (h : Kept first data u) (hfirst : first.Fits .fileStart) :
    (u.aborted true).calls.countP (fun c => c.status = .fileEnd) = 0 := by
  obtain ⟨writes, hcalls, hwrites, -⟩ := h.calls
  have hcalls' : (u.aborted true).calls =
      first :: (writes ++ [{ u.upload with status := .fileAborted }]) := by
    show u.calls ++ _ = _
    rw [hcalls]
    rfl
  rw [hcalls', countP_cons_of_neg (by simp [hfirst.1]), countP_append,
    countP_other (by decide) hwrites, countP_singleton]
  rfl

end

section

variable (filename name type : Text) (len : Nat) (stack : Nat → UInt8)

/-- **An upload** that comes to the line it is compared with is delivered; it
has no end otherwise. -/
theorem uploadFile_scan (boundary : Text) (client : Client) :
    (Delimiter.scan (compared stack boundary) 0 client.bytes = none →
      (uploadFile true stack boundary (newUpload filename name type len) client).2.calls.countP
        (fun c => c.status = .fileEnd) = 0) ∧
    ∀ out rest, Delimiter.scan (compared stack boundary) 0 client.bytes = some (out, rest) →
      Delivered out (u32 out.length)
        (uploadFile true stack boundary (newUpload filename name type len) client).2.calls := by
  have hlen := compared_length stack boundary
  obtain ⟨z, hz⟩ := fastBoundary_eq stack boundary
  have hfirst : (newUpload filename name type len).upload.Fits .fileStart :=
    ⟨rfl, Nat.zero_le _⟩
  have hstart : Kept (newUpload filename name type len).upload []
      (((newUpload filename name type len).call true).setStatus .fileWrite) :=
    ⟨rfl, ⟨[], rfl, fun c hc => absurd hc not_mem_nil, rfl⟩, length_replicate,
      Nat.zero_le _, rfl⟩
  obtain ⟨hnone, hsome⟩ := @contentLoop_scan _ _ _ _ z
    (show 1 < (compared stack boundary).length by omega) (client.length + 1) 0 client
    (Nat.lt_succ_self _) (by omega) hstart
  rw [uploadFile, hz]
  constructor
  · intro h
    obtain ⟨u, data, hloop, hu⟩ := hnone h
    rw [hloop]
    exact hu.aborted_ended hfirst
  · intro out rest h
    obtain ⟨client', u, hloop, -, hu⟩ := hsome out rest h
    have hfinish := hu.finish hfirst
    rw [hloop]
    dsimp only
    split
    · exact hfinish.1
    · exact hfinish.2

/-- **The content of an uploaded file.**  The upload handler is handed exactly
the content in front of the delimiter where the boundary is legible and the
size does not wrap. -/
theorem uploadFile_faithful_iff {boundary content rest : Text} (hcr : 13 ∉ boundary)
    (hnone : ¬ delimiter boundary <:+: content) {client : Client}
    (hbytes : client.bytes = content ++ delimiter boundary ++ rest) :
    Faithful content
        (uploadFile true stack boundary (newUpload filename name type len) client).2.calls ↔
      Legible stack boundary ∧ content.length < 4294967296 := by
  obtain ⟨hend, hdelivered⟩ := uploadFile_scan filename name type len stack boundary client
  have hlen := compared_length stack boundary
  generalize (uploadFile true stack boundary (newUpload filename name type len) client).2.calls =
    calls at hend hdelivered ⊢
  constructor
  · intro h
    cases hscan : Delimiter.scan (compared stack boundary) 0 client.bytes with
    | none =>
      have hended := h.ended
      rw [hend hscan] at hended
      cases hended
    | some r =>
      obtain ⟨out, rest'⟩ := r
      have hd := hdelivered out rest' hscan
      obtain rfl : out = content := hd.written.symm.trans h.written
      have hinput := Delimiter.scan_input (ne_nil_of_length_pos (by omega)) (by omega) hscan
      rw [take_zero, nil_append, hbytes, append_assoc, append_assoc] at hinput
      have hcompared : delimiter boundary = compared stack boundary := by
        refine (append_inj (append_cancel_left hinput) ?_).1
        rw [hlen, delimiter, length_append]
        rfl
      obtain ⟨c, hc, hstatus⟩ : ∃ c ∈ calls, decide (c.status = .fileEnd) = true :=
        countP_pos_iff.mp (by rw [h.ended]; exact Nat.one_pos)
      have htotal := (h.total c hc (of_decide_eq_true hstatus)).symm.trans
        (hd.total c hc (of_decide_eq_true hstatus))
      refine ⟨(compared_eq_iff stack boundary).mp hcompared.symm, ?_⟩
      rw [htotal]
      exact u32_lt _
  · rintro ⟨hlegible, hsize⟩
    have hcons : delimiter boundary = 13 :: ([10, 45, 45] ++ boundary) := rfl
    have hcr' : (13 : UInt8) ∉ [10, 45, 45] ++ boundary := by grind
    rw [hcons] at hnone
    have hscan := Delimiter.scan_first hcr' (Nat.succ_pos _)
      (show ¬ _ <:+: take 0 _ ++ content from hnone) rest
    rw [← hcons, ← hbytes, ← (compared_eq_iff stack boundary).mpr hlegible] at hscan
    have hd := hdelivered _ rest hscan
    rw [take_zero, nil_append, u32_of_lt hsize] at hd
    exact hd

end

/-- Runs of carriage returns and the start of the delimiter, with a pause in
the delimiter. -/
theorem uploadFile_faithful_sample : Faithful (text "\r\r\n-\r\n--c")
    (uploadFile true (fun _ => 0) (text "b") (newUpload [] [] [] 0)
      ((text "\r\r\n-\r\n--c\r\n").map some ++ none :: (text "--b--").map some)).2.calls :=
  (@uploadFile_faithful_iff [] [] [] 0 _ _ _ (text "--") (by decide) (by decide) _ (by decide)).mpr
    ⟨legible_of_notMem _ (by decide), by decide⟩

/-- Of a boundary with a NUL in it only the front is compared with what comes,
and the empty content in front of it has no end. -/
theorem not_uploadFile_faithful : ¬ Faithful []
    (uploadFile true (fun _ => 0) [97, 0, 98] (newUpload [] [] [] 0)
      ((delimiter [97, 0, 98]).map some)).2.calls := by
  intro h
  have hended := h.ended
  rw [(uploadFile_scan [] [] [] 0 (fun _ => 0) [97, 0, 98] _).1 (by decide)] at hended
  cases hended

end Http
