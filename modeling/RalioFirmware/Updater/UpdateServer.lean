import RalioFirmware.Updater.HttpUpdate

/-!
# `ESP8266HTTPUpdateServer`

The page that takes an image from a browser.  The credentials of a request are
looked at where a file of its form begins; the page that reports the result
reads the verdict, and the error of the update, from members of the server.
A form without a file never sets them, so `served_iff` has to exclude that
such a form meets the verdict of an earlier request.

`_serial_output` only prints and is left out.  Credentials and connection are
those of the request: whether `authenticate` accepts it, and what comes.
-/

open Word Bytes Nor Esp

inductive HTTPMethod
  | HTTP_GET | HTTP_HEAD | HTTP_POST | HTTP_PUT | HTTP_PATCH | HTTP_DELETE | HTTP_OPTIONS
deriving DecidableEq, Repr

inductive HTTPUploadStatus
  | UPLOAD_FILE_START | UPLOAD_FILE_WRITE | UPLOAD_FILE_END | UPLOAD_FILE_ABORTED
deriving DecidableEq, Repr

/-- `HTTPUpload`; `buf` is the first `currentSize` bytes of the array. -/
structure HTTPUpload where
  status : HTTPUploadStatus
  name : String
  totalSize : Nat
  buf : List UInt8

namespace UpdateServer

def HTTP_UPLOAD_BUFLEN : Nat := 2048

/-- How a file of a form ends: the connection is lost in its content, or found
closed behind it, or the form goes on or ends there. -/
inductive FileEnd
  | lost | closed | more | last
deriving DecidableEq, Repr

/-- A file of a form, up to its boundary or to the loss of the connection, and
the board at the calls of the updater that it causes. -/
structure FilePart where
  name : String
  content : List UInt8
  fileEnd : FileEnd
  beginEnv : BeginEnv
  endEnv : EndEnv
  abortEnv : EndEnv

inductive Part
  | field (last : Bool)
  | file (part : FilePart)

/-- The body of a request: none or one that is no form, which may not come
whole, or a form, whose first line may not be its boundary. -/
inductive Body
  | plain (whole : Bool)
  | form (boundary : Bool) (parts : List Part)

/-- A request to the path of the server.  `authorized` is what `authenticate`
says of its own header lines. -/
structure Request where
  method : HTTPMethod
  authorized : Bool
  body : Body

/-- What the handling of a request does to its surroundings. -/
inductive Effect
  | beginUpdate (ok : Bool)
  | write (size taken : Nat)
  | endUpdate (evenIfRemaining ok : Bool)
  | serverIndex
  | preflight
  | requestAuthentication
  | updateError (error : Option UpdateError)
  | successResponse
  | restart
  | notFound
deriving DecidableEq, Repr

structure Config where
  layout : Layout
  username : String
  password : String
  username_ne : username ≠ ""
  password_ne : password ≠ ""

/-- The server.  `updaterError` is the error whose text `_updaterError` is; the
log is that of the request being handled. -/
structure Server (F : SpiFlash) where
  authenticated : Bool
  updaterError : Option UpdateError
  update : Updater F
  restarted : Bool
  log : List Effect

variable {F : SpiFlash}

def boot (verifier : Option Verifier) (chip : Chip F) : Server F where
  authenticated := false
  updaterError := none
  update := Updater.init verifier chip
  restarted := false
  log := []

def Server.note (e : Effect) (s : Server F) : Server F := { s with log := s.log ++ [e] }

/-! ## The handlers -/

/-- Whether no credentials are set, or those of the request are right. -/
def Config.accepts (c : Config) (r : Request) : Bool :=
  c.username = "" || c.password = "" || r.authorized

def setUpdaterError (s : Server F) : Server F := { s with updaterError := some s.update.error }

def beginFilesystem (c : Config) (p : FilePart) (s : Server F) : Server F :=
  let fsSize := c.layout.FS_end - c.layout.FS_start
  match Updater.beginUpdate c.layout p.beginEnv fsSize U_FS s.update with
  | (ok, u) => { s with update := u }.note (.beginUpdate ok)

def beginSketch (c : Config) (p : FilePart) (s : Server F) : Server F :=
  match HttpUpdate.getFreeSketchSpace c.layout s.update with
  | (freeSpace, u) =>
    let maxSketchSpace := clearLow 12 (sub32 freeSpace 0x1000)
    match Updater.beginUpdate c.layout p.beginEnv maxSketchSpace U_FLASH u with
    | (true, u) => { s with update := u }.note (.beginUpdate true)
    | (false, u) => setUpdaterError ({ s with update := u }.note (.beginUpdate false))

def uploadStart (c : Config) (r : Request) (p : FilePart) (upload : HTTPUpload) (s : Server F) :
    Server F :=
  let s := { s with updaterError := none, authenticated := c.accepts r }
  if s.authenticated = false then s
  else if upload.name = "filesystem" then beginFilesystem c p s
  else beginSketch c p s

def upload (c : Config) (r : Request) (p : FilePart) (upload : HTTPUpload) (s : Server F) :
    Server F :=
  if upload.status = .UPLOAD_FILE_START then uploadStart c r p upload s
  else if s.authenticated ∧ upload.status = .UPLOAD_FILE_WRITE ∧ s.updaterError = none then
    let (taken, u) := s.update.write upload.buf
    let s := { s with update := u }.note (.write upload.buf.length taken)
    if taken ≠ upload.buf.length then setUpdaterError s else s
  else if s.authenticated ∧ upload.status = .UPLOAD_FILE_END ∧ s.updaterError = none then
    let (ok, u) := s.update.endUpdate p.endEnv true
    let s := { s with update := u }.note (.endUpdate true ok)
    if ok then s else setUpdaterError s
  else if s.authenticated ∧ upload.status = .UPLOAD_FILE_ABORTED then
    let (ok, u) := s.update.endUpdate p.abortEnv false
    { s with update := u }.note (.endUpdate false ok)
  else s

def handleGet (c : Config) (r : Request) (s : Server F) : Server F :=
  if c.username ≠ "" ∧ c.password ≠ "" ∧ r.authorized = false then s.note .requestAuthentication
  else s.note .serverIndex

def handleOptions (s : Server F) : Server F := s.note .preflight

def handlePost (s : Server F) : Server F :=
  if s.authenticated = false then s.note .requestAuthentication
  else if s.update.hasError then s.note (.updateError s.updaterError)
  else { s.note .successResponse |>.note .restart with restarted := true }

/-! ## The web server -/

/-- `canUpload` of the handler of a method: those of GET and OPTIONS do not
handle a POST. -/
def canUpload (m : HTTPMethod) : Bool := m = .HTTP_POST

def callUpload (c : Config) (r : Request) (p : FilePart) (up : HTTPUpload) (s : Server F) :
    Server F :=
  if canUpload r.method then upload c r p up s else s

def uploadWriteByte (c : Config) (r : Request) (p : FilePart) (b : UInt8)
    (x : HTTPUpload × Server F) : HTTPUpload × Server F :=
  let (up, s) := x
  let (up, s) :=
    if up.buf.length = HTTP_UPLOAD_BUFLEN then
      ({ up with totalSize := up.totalSize + up.buf.length, buf := [] }, callUpload c r p up s)
    else (up, s)
  ({ up with buf := up.buf ++ [b] }, s)

def uploadBytes (c : Config) (r : Request) (p : FilePart) :
    List UInt8 → HTTPUpload × Server F → HTTPUpload × Server F
  | [], x => x
  | b :: rest, x => uploadBytes c r p rest (uploadWriteByte c r p b x)

def parseFile (c : Config) (r : Request) (p : FilePart) (s : Server F) : Server F :=
  let up : HTTPUpload := ⟨.UPLOAD_FILE_START, p.name, 0, []⟩
  let s := callUpload c r p up s
  let (up, s) := uploadBytes c r p p.content ({ up with status := .UPLOAD_FILE_WRITE }, s)
  if p.fileEnd = .lost then callUpload c r p { up with status := .UPLOAD_FILE_ABORTED } s
  else
    let s := callUpload c r p up s
    let up := { up with totalSize := up.totalSize + up.buf.length, status := .UPLOAD_FILE_END }
    let s := callUpload c r p up s
    if p.fileEnd = .closed then callUpload c r p { up with status := .UPLOAD_FILE_ABORTED } s
    else s

/-- The loop of `_parseForm`: whether the form is complete.  With nothing more to
come, the loop waits. -/
def parseForm (c : Config) (r : Request) : List Part → Server F → Bool × Server F
  | [], s => (false, s)
  | .field last :: rest, s => if last then (true, s) else parseForm c r rest s
  | .file p :: rest, s =>
    let s := parseFile c r p s
    match p.fileEnd with
    | .lost | .closed => (false, s)
    | .last => (true, s)
    | .more => parseForm c r rest s

def hasBody (m : HTTPMethod) : Bool :=
  m = .HTTP_POST || m = .HTTP_PUT || m = .HTTP_PATCH || m = .HTTP_DELETE

/-- `_parseRequest`: whether the request can be handled. -/
def parseRequest (c : Config) (r : Request) (s : Server F) : Bool × Server F :=
  if hasBody r.method then
    match r.body with
    | .plain whole => (whole, s)
    | .form boundary parts => if boundary then parseForm c r parts s else (false, s)
  else (true, s)

def handleRequest (c : Config) (r : Request) (s : Server F) : Server F :=
  match r.method with
  | .HTTP_GET => handleGet c r s
  | .HTTP_OPTIONS => handleOptions s
  | .HTTP_POST => handlePost s
  | _ => s.note .notFound

/-- A request, from its first line to its answer.  After a restart this server
is no more. -/
def serve (c : Config) (r : Request) (s : Server F) : Server F :=
  let s := { s with log := [] }
  if s.restarted then s
  else
    match parseRequest c r s with
    | (true, s) => handleRequest c r s
    | (false, s) => s

/-! ## The updater under the upload handler -/

structure Active (u : Updater F) : Prop where
  error : u.error = .ok
  running : 0 < u.size
  command : u.command = U_FLASH ∨ u.command = U_FS

section

variable {u v : Updater F}

theorem beginUpdate_active {L : Layout} {env : BeginEnv} {size : Nat} {command : Int}
    (hc : command = U_FLASH ∨ command = U_FS)
    (h : Updater.beginUpdate L env size command u = (true, v)) : Active v := by
  obtain ⟨hpos, c, start, block, -, -, -, rfl⟩ := Updater.beginUpdate_true h
  exact ⟨rfl, hpos, hc⟩

theorem writeBuffer_active (hu : Active u) {ok : Bool} (h : u.writeBuffer = (ok, v)) :
    if ok then Active v else Updater.Dropped v := by
  cases ok with
  | true =>
    obtain ⟨-, c₁, c₂, c₃, -, -, -, rfl⟩ := Updater.writeBuffer_true h
    exact ⟨hu.error, hu.running, hu.command⟩
  | false =>
    obtain ⟨c, evs, e, he, -, rfl, -⟩ := Updater.writeBuffer_false h
    exact Updater.setError_dropped (Updater.flushError_ne he) _

theorem fill_active (hu : Active u) (bytes : List UInt8) : Active (u.fill bytes) :=
  ⟨hu.error, hu.running, hu.command⟩

theorem writeLoop_active {rounds : Nat} {data left : List UInt8} (hu : Active u)
    (h : Updater.writeLoop rounds data u = (true, left, v)) : Active v := by
  induction rounds generalizing u data with
  | zero =>
    obtain ⟨-, -, rfl⟩ : true = true ∧ data = left ∧ u = v := by
      simpa [Updater.writeLoop] using h
    exact hu
  | succ rounds ih =>
    rw [Updater.writeLoop] at h
    split at h
    · dsimp only at h
      split at h
      · cases h
      · rename_i w hflush
        have hw := writeBuffer_active (fill_active hu _) hflush
        exact ih hw h
    · obtain ⟨-, -, rfl⟩ : true = true ∧ data = left ∧ u = v := by simpa using h
      exact hu

theorem write_active {data : List UInt8} {n : Nat} (hu : Active u) (h : u.write data = (n, v)) :
    Active v ∧ n = data.length ∨ Updater.Dropped v := by
  have hrun : ¬ (u.hasError ∨ ¬ u.isRunning) := by
    rintro (herr | hidle)
    · exact herr hu.error
    · exact hidle hu.running
  rw [Updater.write, if_neg hrun] at h
  split at h
  · exact .inr ((Prod.mk.inj h).2 ▸ Updater.setError_dropped (by decide) _)
  generalize hloop : Updater.writeLoop (data.length + 2) data u = r at h
  obtain ⟨ok, left, w⟩ := r
  cases ok with
  | false => exact .inr ((Prod.mk.inj h).2 ▸ Updater.writeLoop_false hloop)
  | true =>
    have hw := fill_active (writeLoop_active hu hloop) left
    dsimp only at h
    split at h
    · generalize hflush : (w.fill left).writeBuffer = r at h
      obtain ⟨ok, w₂⟩ := r
      have hlast := writeBuffer_active hw hflush
      cases ok with
      | false => exact .inr ((Prod.mk.inj h).2 ▸ hlast)
      | true =>
        obtain ⟨rfl, rfl⟩ := Prod.mk.inj h
        exact .inl ⟨hlast, rfl⟩
    · obtain ⟨rfl, rfl⟩ := Prod.mk.inj h
      exact .inl ⟨hw, rfl⟩

variable {env : EndEnv}

variable {v' : Verifier}

theorem verifyHash_false {hashed : List UInt8} {sigLen binSize : Nat}
    (h : u.verifyHash env v' hashed sigLen binSize = (false, v)) : v.error ≠ .ok := by
  unfold Updater.verifyHash at h
  split at h
  · split at h
    · rw [← (Prod.mk.inj h).2]
      exact nofun
    · dsimp only at h
      split at h
      · cases h
      · rw [← (Prod.mk.inj h).2]
        exact nofun
  · dsimp only at h
    split at h
    · cases h
    · rw [← (Prod.mk.inj h).2]
      exact nofun

theorem checkSignature_false
    (h : u.checkSignature env v' = (false, v)) : v.error ≠ .ok := by
  unfold Updater.checkSignature at h
  dsimp only at h
  generalize (if v'.length > 0 then u.readSigLen else (0, u.chip)) = r at h
  obtain ⟨sigLen, chip⟩ := r
  dsimp only at h
  by_cases hsig : sigLen ≠ v'.length
  · rw [if_pos hsig] at h
    rw [← (Prod.mk.inj h).2]
    exact nofun
  rw [if_neg hsig] at h
  by_cases hroom : v'.length > 0 ∧ u.size < u32 (sigLen + 4)
  · rw [if_pos hroom] at h
    rw [← (Prod.mk.inj h).2]
    exact nofun
  rw [if_neg hroom] at h
  generalize (if v'.length > 0 then u.size - u32 (sigLen + 4) else u.size) = binSize at h
  generalize Updater.hashPayload env binSize _ = r at h
  obtain ⟨hashed, w⟩ := r
  dsimp only at h
  generalize hverify : w.verifyHash env v' hashed sigLen binSize = r at h
  obtain ⟨ok, x⟩ := r
  cases ok with
  | false =>
    rw [← (Prod.mk.inj h).2]
    show x.error ≠ .ok
    exact verifyHash_false hverify
  | true => cases h

theorem checkImage_false (h : u.checkImage env = (false, v)) : v.error ≠ .ok := by
  unfold Updater.checkImage at h
  split at h
  · exact checkSignature_false h
  · unfold Updater.checkMd5 at h
    dsimp only at h
    split at h
    · split at h
      · cases h
      · rw [← (Prod.mk.inj h).2]
        exact nofun
    · cases h

theorem verifyEnd_false (hc : u.command = U_FLASH ∨ u.command = U_FS)
    (h : u.verifyEnd = (false, v)) : v.error ≠ .ok := by
  unfold Updater.verifyEnd at h
  split at h
  · split at h
    · rw [← (Prod.mk.inj h).2]
      exact nofun
    · dsimp only at h
      split at h
      · rename_i e hverdict
        rw [← (Prod.mk.inj h).2]
        show e ≠ .ok
        rintro rfl
        unfold Updater.headerVerdict at hverdict
        repeat' split at hverdict
        all_goals cases hverdict
      · cases h
  · grind

theorem finish_false (hc : u.command = U_FLASH ∨ u.command = U_FS)
    (h : u.finish env = (false, v)) : v.error ≠ .ok := by
  unfold Updater.finish at h
  generalize hcheck : u.checkImage env = r at h
  obtain ⟨ok, w⟩ := r
  cases ok with
  | false =>
    obtain ⟨-, rfl⟩ := Prod.mk.inj h
    exact checkImage_false hcheck
  | true =>
    have hw := (Updater.checkImage_true hcheck).1.command
    dsimp only at h
    generalize hverify : w.verifyEnd = r at h
    obtain ⟨ok, x⟩ := r
    cases ok with
    | false =>
      rw [← (Prod.mk.inj h).2]
      show x.error ≠ .ok
      exact verifyEnd_false (by rwa [hw]) hverify
    | true => cases h

theorem endUpdate_false {even : Bool} (heven : even = true) (hu : Active u)
    (h : u.endUpdate env even = (false, v)) : v.error ≠ .ok := by
  have hsize := hu.running
  rw [Updater.endUpdate, if_neg (by omega)] at h
  by_cases hnone : u.progress = 0
  · rw [if_pos hnone] at h
    dsimp only at h
    rw [if_pos (.inl (by simp [Updater.hasError, Updater.setError, Updater.reset]))] at h
    rw [← (Prod.mk.inj h).2]
    intro hok
    cases hok
  · rw [if_neg hnone] at h
    dsimp only at h
    split at h
    · rename_i hbad
      rcases hbad with herr | ⟨-, hfalse⟩
      · exact absurd hu.error herr
      · rw [heven] at hfalse
        cases hfalse
    · refine finish_false ?_ h
      unfold Updater.flushRemaining
      dsimp only
      by_cases hbuf : u.bufferLen > 0
      · rw [if_pos hbuf]
        generalize hflush : u.writeBuffer = r
        obtain ⟨ok, w⟩ := r
        have hw := writeBuffer_active hu hflush
        cases ok with
        | true => exact hw.command
        | false =>
          obtain ⟨c, evs, e, he, -, rfl, -⟩ := Updater.writeBuffer_false hflush
          exact .inl rfl
      · rw [if_neg hbuf]
        exact hu.command

end

/-! ## One request -/

def Effect.privileged : Effect → Bool
  | .beginUpdate _ | .write _ _ | .endUpdate _ _ | .successResponse | .restart => true
  | _ => false

/-- What the handling of a request may have done: what needs credentials only
with those of the request itself, and success only after its own update. -/
structure Proper (c : Config) (r : Request) (s : Server F) : Prop where
  authorized : ∀ e ∈ (serve c r s).log, e.privileged = true → r.authorized = true
  ended : .successResponse ∈ (serve c r s).log → .endUpdate true true ∈ (serve c r s).log

/-- A log without an answer, in which nothing was done without credentials. -/
def Quiet (r : Request) (log : List Effect) : Prop :=
  ∀ e ∈ log, (e.privileged = true → r.authorized = true) ∧ e ≠ .successResponse

variable {log : List Effect} {e : Effect}

theorem Quiet.note {r : Request} (h : Quiet r log)
    (he : e.privileged = true → r.authorized = true) (hs : e ≠ .successResponse) :
    Quiet r (log ++ [e]) := by
  intro e' he'
  rcases List.mem_append.mp he' with he' | he'
  · exact h e' he'
  · grind

structure Parsing (r : Request) (s : Server F) : Prop where
  quiet : Quiet r s.log
  idle : s.update.size = 0

structure Uploading (r : Request) (s : Server F) : Prop where
  quiet : Quiet r s.log
  authenticated : s.authenticated = r.authorized
  rejected : r.authorized = false → s.update.size = 0
  update : r.authorized = true → Active s.update ∨ Updater.Dropped s.update
  failed : r.authorized = true → s.updaterError ≠ none → Updater.Dropped s.update

structure Uploaded (r : Request) (s : Server F) : Prop extends Parsing r s where
  authenticated : s.authenticated = r.authorized
  ended : r.authorized = true → ¬ s.update.hasError → .endUpdate true true ∈ s.log

section

variable {c : Config} {r : Request} {s : Server F}

theorem Config.accepts_eq (c : Config) (r : Request) : c.accepts r = r.authorized := by
  simp [Config.accepts, c.username_ne, c.password_ne]

theorem getFreeSketchSpace_size (L : Layout) (u : Updater F) :
    (HttpUpdate.getFreeSketchSpace L u).2.size = u.size := rfl

theorem beginFilesystem_uploading (h : Parsing r s) (hauth : r.authorized = true)
    (hs : s.authenticated = true) (herr : s.updaterError = none) (p : FilePart) :
    Uploading r (beginFilesystem c p s) := by
  rw [beginFilesystem]
  generalize hbegin : Updater.beginUpdate c.layout p.beginEnv _ U_FS s.update = res
  obtain ⟨ok, u⟩ := res
  have hu : Active u ∨ Updater.Dropped u := by
    cases ok with
    | true => exact .inl (beginUpdate_active (.inr rfl) hbegin)
    | false => exact .inr (HttpUpdate.beginUpdate_dropped (.inr rfl) hbegin h.idle)
  exact ⟨h.quiet.note (fun _ => hauth) nofun, hs.trans hauth.symm,
    fun hno => absurd hauth (by simp [hno]), fun _ => hu, fun _ hbad => absurd herr hbad⟩

theorem beginSketch_uploading (h : Parsing r s) (hauth : r.authorized = true)
    (hs : s.authenticated = true) (herr : s.updaterError = none) (p : FilePart) :
    Uploading r (beginSketch c p s) := by
  have hidle := (getFreeSketchSpace_size c.layout s.update).trans h.idle
  have hno : r.authorized = false → ∀ u : Updater F, u.size = 0 :=
    fun hno => absurd hauth (by simp [hno])
  rw [beginSketch]
  generalize HttpUpdate.getFreeSketchSpace c.layout s.update = res at hidle ⊢
  obtain ⟨freeSpace, w⟩ := res
  dsimp only at hidle ⊢
  generalize hbegin : Updater.beginUpdate c.layout p.beginEnv _ U_FLASH w = res
  obtain ⟨ok, u⟩ := res
  cases ok with
  | true =>
    exact ⟨h.quiet.note (fun _ => hauth) nofun, hs.trans hauth.symm, fun hbad => hno hbad u,
      fun _ => .inl (beginUpdate_active (.inl rfl) hbegin), fun _ hbad => absurd herr hbad⟩
  | false =>
    have hu := HttpUpdate.beginUpdate_dropped (.inl rfl) hbegin hidle
    exact ⟨h.quiet.note (fun _ => hauth) nofun, hs.trans hauth.symm, fun hbad => hno hbad u,
      fun _ => .inr hu, fun _ _ => hu⟩

theorem uploadStart_uploading (h : Parsing r s) (p : FilePart) (up : HTTPUpload) :
    Uploading r (uploadStart c r p up s) := by
  rw [uploadStart, c.accepts_eq]
  have hstart : Parsing r { s with updaterError := none, authenticated := r.authorized } :=
    ⟨h.quiet, h.idle⟩
  generalize hs : ({ s with updaterError := none, authenticated := r.authorized } : Server F) = s'
    at hstart
  have hauthenticated : s'.authenticated = r.authorized := by rw [← hs]
  have herr : s'.updaterError = none := by rw [← hs]
  show Uploading r (if s'.authenticated = false then s' else
    if up.name = "filesystem" then beginFilesystem c p s' else beginSketch c p s')
  by_cases hno : s'.authenticated = false
  · rw [if_pos hno]
    have hrejected := hauthenticated.symm.trans hno
    exact ⟨hstart.quiet, hauthenticated, fun _ => hstart.idle,
      fun hyes => absurd hyes (by simp [hrejected]), fun hyes => absurd hyes (by simp [hrejected])⟩
  · rw [if_neg hno]
    have hyes : s'.authenticated = true := by simpa using hno
    have hauth := hauthenticated.symm.trans hyes
    split
    · exact beginFilesystem_uploading hstart hauth hyes herr p
    · exact beginSketch_uploading hstart hauth hyes herr p

variable {p : FilePart} {up : HTTPUpload}

theorem upload_rejected
    (hstatus : up.status ≠ .UPLOAD_FILE_START) (hauth : s.authenticated = false) :
    upload c r p up s = s := by
  rw [upload, if_neg hstatus, if_neg (by simp [hauth]), if_neg (by simp [hauth]),
    if_neg (by simp [hauth])]

theorem Uploading.write (h : Uploading r s)
    (hstatus : up.status = .UPLOAD_FILE_WRITE) : Uploading r (upload c r p up s) := by
  by_cases hauth : r.authorized = true
  · have hsauth := h.authenticated.trans hauth
    rw [upload, if_neg (by simp [hstatus])]
    by_cases herr : s.updaterError = none
    · rw [if_pos ⟨hsauth, hstatus, herr⟩]
      generalize hwrite : s.update.write up.buf = res
      obtain ⟨taken, u⟩ := res
      have hu : Active u ∧ taken = up.buf.length ∨ Updater.Dropped u := by
        rcases h.update hauth with hactive | hdropped
        · exact write_active hactive hwrite
        · rw [Updater.write_dropped hdropped] at hwrite
          exact .inr ((Prod.mk.inj hwrite).2 ▸ hdropped)
      have hquiet := h.quiet.note (e := .write up.buf.length taken) (fun _ => hauth) nofun
      dsimp only
      split
      · rename_i hshort
        have hdropped := hu.resolve_left fun hfull => hshort hfull.2
        exact ⟨hquiet, h.authenticated, fun hno => absurd hauth (by simp [hno]),
          fun _ => .inr hdropped, fun _ _ => hdropped⟩
      · exact ⟨hquiet, h.authenticated, fun hno => absurd hauth (by simp [hno]),
          fun _ => hu.imp_left And.left, fun _ hbad => absurd herr hbad⟩
    · grind
  · have hno := Bool.eq_false_iff.mpr hauth
    rw [upload_rejected (by simp [hstatus]) (h.authenticated.trans hno)]
    exact h

theorem Uploading.finish (h : Uploading r s)
    (hstatus : up.status = .UPLOAD_FILE_END) : Uploaded r (upload c r p up s) := by
  by_cases hauth : r.authorized = true
  · have hsauth := h.authenticated.trans hauth
    rw [upload, if_neg (by simp [hstatus]), if_neg (by simp [hstatus])]
    by_cases herr : s.updaterError = none
    · rw [if_pos ⟨hsauth, hstatus, herr⟩]
      have hsize := HttpUpdate.endUpdate_size p.endEnv true s.update
      generalize hend : s.update.endUpdate p.endEnv true = res at hsize
      obtain ⟨ok, u⟩ := res
      have hquiet := h.quiet.note (e := .endUpdate true ok) (fun _ => hauth) nofun
      dsimp only
      cases ok with
      | true =>
        exact ⟨⟨hquiet, hsize⟩, h.authenticated,
          fun _ _ => List.mem_append.mpr (.inr List.mem_cons_self)⟩
      | false =>
        refine ⟨⟨hquiet, hsize⟩, h.authenticated, fun _ hok => absurd ?_ hok⟩
        rcases h.update hauth with hactive | hdropped
        · exact endUpdate_false rfl hactive hend
        · rw [Updater.endUpdate_dropped hdropped] at hend
          obtain ⟨-, rfl⟩ := Prod.mk.inj hend
          exact hdropped.error
    · have hdropped := h.failed hauth herr
      rw [if_neg fun hyes => herr hyes.2.2, if_neg (by simp [hstatus])]
      exact ⟨⟨h.quiet, hdropped.size⟩, h.authenticated, fun _ hok => absurd hdropped.error hok⟩
  · have hno := Bool.eq_false_iff.mpr hauth
    rw [upload_rejected (by simp [hstatus]) (h.authenticated.trans hno)]
    exact ⟨⟨h.quiet, h.rejected hno⟩, h.authenticated, fun hyes => absurd hyes hauth⟩

theorem upload_aborted (hquiet : Quiet r s.log) (hauth : s.authenticated = r.authorized)
    (hrejected : r.authorized = false → s.update.size = 0)
    (hstatus : up.status = .UPLOAD_FILE_ABORTED) : Parsing r (upload c r p up s) := by
  by_cases hyes : r.authorized = true
  · rw [upload, if_neg (by simp [hstatus]), if_neg (by simp [hstatus]), if_neg (by simp [hstatus]),
      if_pos ⟨hauth.trans hyes, hstatus⟩]
    exact ⟨hquiet.note (fun _ => hyes) nofun, HttpUpdate.endUpdate_size p.abortEnv false s.update⟩
  · have hno := Bool.eq_false_iff.mpr hyes
    rw [upload_rejected (by simp [hstatus]) (hauth.trans hno)]
    exact ⟨hquiet, hrejected hno⟩

theorem Uploading.bytes (hpost : canUpload r.method = true) {content : List UInt8}
    (h : Uploading r s) (hstatus : up.status = .UPLOAD_FILE_WRITE) :
    Uploading r (uploadBytes c r p content (up, s)).2 ∧
      (uploadBytes c r p content (up, s)).1.status = .UPLOAD_FILE_WRITE := by
  induction content generalizing up s with
  | nil => exact ⟨h, hstatus⟩
  | cons b rest ih =>
    rw [uploadBytes, uploadWriteByte]
    dsimp only
    by_cases hfull : up.buf.length = HTTP_UPLOAD_BUFLEN
    · rw [if_pos hfull, callUpload, if_pos hpost]
      exact ih (h.write hstatus) hstatus
    · rw [if_neg hfull]
      exact ih h hstatus

/-- **A file of a form** leaves no update running, and if it comes whole its
verdict and its end are those of the request. -/
theorem parseFile_spec (hpost : canUpload r.method = true) (h : Parsing r s) (p : FilePart) :
    Parsing r (parseFile c r p s) ∧
      (p.fileEnd ≠ .lost → p.fileEnd ≠ .closed → Uploaded r (parseFile c r p s)) := by
  rw [parseFile]
  simp only [callUpload, if_pos hpost]
  have hstart : Uploading r (upload c r p ⟨.UPLOAD_FILE_START, p.name, 0, []⟩ s) := by
    rw [upload, if_pos rfl]
    exact uploadStart_uploading h p _
  have hbytes : Uploading r (uploadBytes c r p p.content (⟨.UPLOAD_FILE_WRITE, p.name, 0, []⟩,
      upload c r p ⟨.UPLOAD_FILE_START, p.name, 0, []⟩ s)).2 ∧ _ := hstart.bytes hpost rfl
  generalize uploadBytes c r p p.content _ = x at hbytes ⊢
  obtain ⟨up, s₁⟩ := x
  obtain ⟨huploading, hstatus⟩ := hbytes
  dsimp only at huploading hstatus ⊢
  by_cases hlost : p.fileEnd = .lost
  · rw [if_pos hlost]
    exact ⟨upload_aborted huploading.quiet huploading.authenticated huploading.rejected rfl,
      fun hbad => absurd hlost hbad⟩
  rw [if_neg hlost]
  have hwrite : Uploading r (upload c r p up s₁) := huploading.write hstatus
  have hend : Uploaded r (upload c r p ⟨.UPLOAD_FILE_END, up.name, up.totalSize + up.buf.length,
    up.buf⟩ (upload c r p up s₁)) := hwrite.finish rfl
  by_cases hclosed : p.fileEnd = .closed
  · rw [if_pos hclosed]
    exact ⟨upload_aborted hend.quiet hend.authenticated (fun _ => hend.idle) rfl,
      fun _ hbad => absurd hclosed hbad⟩
  · rw [if_neg hclosed]
    exact ⟨hend.toParsing, fun _ _ => hend⟩

/-! ## Forms without a file -/

def fieldsOnly : List Part → Bool
  | [] => false
  | .field last :: rest => last || fieldsOnly rest
  | .file _ :: _ => false

def Body.noFile : Body → Bool
  | .plain whole => whole
  | .form boundary parts => boundary && fieldsOnly parts

theorem parseForm_fieldsOnly {parts : List Part} (h : fieldsOnly parts = true) :
    parseForm c r parts s = (true, s) := by
  induction parts with
  | nil => cases h
  | cons part rest ih =>
    cases part with
    | file p => cases h
    | field last =>
      cases last with
      | true => rfl
      | false => exact ih h

theorem parseForm_spec (hpost : canUpload r.method = true) {parts : List Part}
    (h : Parsing r s) : Parsing r (parseForm c r parts s).2 ∧
      ((parseForm c r parts s).1 = true →
        fieldsOnly parts = true ∧ (parseForm c r parts s).2 = s ∨
          Uploaded r (parseForm c r parts s).2) := by
  induction parts generalizing s with
  | nil => exact ⟨h, fun hbad => nomatch hbad⟩
  | cons part rest ih =>
    cases part with
    | field last =>
      cases last with
      | true => exact ⟨h, fun _ => .inl ⟨rfl, rfl⟩⟩
      | false => exact ih h
    | file p =>
      obtain ⟨hparsing, huploaded⟩ := parseFile_spec (c := c) hpost h p
      rw [parseForm]
      cases hend : p.fileEnd with
      | lost => exact ⟨hparsing, fun hbad => nomatch hbad⟩
      | closed => exact ⟨hparsing, fun hbad => nomatch hbad⟩
      | last => exact ⟨hparsing, fun _ => .inr (huploaded (by simp [hend]) (by simp [hend]))⟩
      | more =>
        have hrest := ih hparsing
        refine ⟨hrest.1, fun hok => .inr ?_⟩
        rcases hrest.2 hok with ⟨-, hsame⟩ | hlater
        · grind
        · exact hlater

theorem parseForm_idle (hpost : canUpload r.method = false) {parts : List Part} :
    (parseForm c r parts s).2 = s := by
  have hcall : ∀ p up (s : Server F), callUpload c r p up s = s := fun p up s => by
    rw [callUpload, if_neg (by simp [hpost])]
  have hbytes : ∀ p content (up : HTTPUpload) (s : Server F),
      (uploadBytes c r p content (up, s)).2 = s := by
    intro p content
    induction content with
    | nil => exact fun up s => rfl
    | cons b rest ih =>
      intro up s
      rw [uploadBytes, uploadWriteByte]
      dsimp only
      rw [hcall]
      split <;> exact ih _ s
  have hfile : ∀ p (s : Server F), parseFile c r p s = s := by
    intro p s
    rw [parseFile]
    simp only [hcall, hbytes, ite_self]
  induction parts with
  | nil => rfl
  | cons part rest ih =>
    cases part with
    | field last =>
      cases last with
      | true => rfl
      | false => exact ih
    | file p =>
      rw [parseForm, hfile]
      split
      · rfl
      · rfl
      · rfl
      · exact ih

/-! ## Every request -/

/-- A POST without a file that meets the verdict of an earlier request, and no
error of its update. -/
structure LeftOver (r : Request) (s : Server F) : Prop where
  restarted : s.restarted = false
  method : r.method = .HTTP_POST
  noFile : r.body.noFile = true
  authenticated : s.authenticated = true
  noError : ¬ s.update.hasError

theorem Quiet.authorized (h : Quiet r log) (he : e ∈ log)
    (hp : e.privileged = true) : r.authorized = true := (h e he).1 hp

theorem Quiet.not_success (h : Quiet r log) :
    Effect.successResponse ∉ log := fun hs => (h _ hs).2 rfl

theorem proper_of_quiet (h : Quiet r (serve c r s).log) : Proper c r s :=
  ⟨fun _ he hp => h.authorized he hp, fun hs => absurd hs h.not_success⟩

theorem Uploaded.handlePost (h : Uploaded r s) :
    (handlePost s).update.size = 0 ∧
      (∀ e ∈ (handlePost s).log, e.privileged = true → r.authorized = true) ∧
      (.successResponse ∈ (handlePost s).log → .endUpdate true true ∈ (handlePost s).log) := by
  rw [UpdateServer.handlePost]
  by_cases hno : s.authenticated = false
  · rw [if_pos hno]
    have hquiet := h.quiet.note (e := .requestAuthentication) nofun nofun
    exact ⟨h.idle, fun _ he hp => hquiet.authorized he hp, fun hs => absurd hs hquiet.not_success⟩
  rw [if_neg hno]
  by_cases herr : s.update.hasError
  · rw [if_pos herr]
    have hquiet := h.quiet.note (e := .updateError s.updaterError) nofun nofun
    exact ⟨h.idle, fun _ he hp => hquiet.authorized he hp, fun hs => absurd hs hquiet.not_success⟩
  · rw [if_neg herr]
    have hyes : r.authorized = true := h.authenticated.symm.trans (by simpa using hno)
    exact ⟨h.idle, fun _ _ _ => hyes, fun _ => List.mem_append.mpr (.inl (List.mem_append.mpr
      (.inl (h.ended hyes herr))))⟩

theorem parseRequest_post (hmethod : r.method = .HTTP_POST) (h : Parsing r s) :
    Parsing r (parseRequest c r s).2 ∧
      ((parseRequest c r s).1 = true →
        r.body.noFile = true ∧ (parseRequest c r s).2 = s ∨ Uploaded r (parseRequest c r s).2) := by
  rw [parseRequest, if_pos (by rw [hmethod]; rfl)]
  cases hbody : r.body with
  | plain whole => exact ⟨h, fun hwhole => .inl ⟨hwhole, rfl⟩⟩
  | form boundary parts =>
    cases boundary with
    | false => exact ⟨h, fun hbad => nomatch hbad⟩
    | true =>
      exact parseForm_spec (by rw [hmethod]; rfl) h

theorem parseRequest_noFile (hmethod : r.method = .HTTP_POST) (h : r.body.noFile = true) :
    parseRequest c r s = (true, s) := by
  rw [parseRequest, if_pos (by rw [hmethod]; rfl)]
  cases hbody : r.body with
  | plain whole =>
    rw [hbody] at h
    obtain rfl : whole = true := h
    rfl
  | form boundary parts =>
    rw [hbody] at h
    obtain ⟨rfl, hparts⟩ := Bool.and_eq_true_iff.mp h
    exact parseForm_fieldsOnly hparts

theorem parseRequest_other (hmethod : r.method ≠ .HTTP_POST) : (parseRequest c r s).2 = s := by
  rw [parseRequest]
  split
  · cases r.body with
    | plain whole => rfl
    | form boundary parts =>
      cases boundary with
      | false => rfl
      | true => exact parseForm_idle (by simp [canUpload, hmethod])
  · rfl

theorem handleRequest_other (hmethod : r.method ≠ .HTTP_POST) (h : Parsing r s) :
    Parsing r (handleRequest c r s) := by
  have hnote : ∀ e : Effect, e.privileged = false → e ≠ .successResponse →
      Parsing r (s.note e) := fun e he hs =>
    ⟨h.quiet.note (fun hbad => absurd (he.symm.trans hbad) (by decide)) hs, h.idle⟩
  cases hm : r.method with
  | HTTP_POST => exact absurd hm hmethod
  | HTTP_GET =>
    rw [handleRequest, hm]
    show Parsing r (handleGet c r s)
    rw [handleGet]
    split
    · exact hnote _ rfl nofun
    · exact hnote _ rfl nofun
  | HTTP_OPTIONS =>
    rw [handleRequest, hm]
    exact hnote _ rfl nofun
  | HTTP_HEAD | HTTP_PUT | HTTP_PATCH | HTTP_DELETE =>
    rw [handleRequest, hm]
    exact hnote _ rfl nofun

def Idle (s : Server F) : Prop := s.update.size = 0

/-- **One request**: it leaves no update running, and is handled as it should be
exactly when it does not meet what an earlier request left over. -/
theorem serve_spec (c : Config) (r : Request) {s : Server F} (hidle : Idle s) :
    Idle (serve c r s) ∧ (Proper c r s ↔ ¬ LeftOver r s) := by
  have hstart : Parsing r { s with log := [] } := ⟨fun e he => (nomatch he), hidle⟩
  by_cases hrestarted : s.restarted = true
  · have hserve : serve c r s = { s with log := [] } := by
      rw [serve]
      exact if_pos hrestarted
    rw [hserve]
    refine ⟨hidle, iff_of_true (proper_of_quiet ?_) fun h => ?_⟩
    · rw [hserve]
      exact hstart.quiet
    · exact absurd (h.restarted.symm.trans hrestarted) Bool.false_ne_true
  have hserve : serve c r s =
      match parseRequest c r { s with log := [] } with
      | (true, s) => handleRequest c r s
      | (false, s) => s := by
    rw [serve]
    exact if_neg hrestarted
  have hfalse : s.restarted = false := by simpa using hrestarted
  by_cases hmethod : r.method = .HTTP_POST
  · by_cases hleft : LeftOver r s
    · have hanswer : serve c r s = { ({ s with log := [] } : Server F).note .successResponse
          |>.note .restart with restarted := true } := by
        rw [hserve, parseRequest_noFile hmethod hleft.noFile]
        show handleRequest c r { s with log := [] } = _
        rw [handleRequest, hmethod]
        show handlePost { s with log := [] } = _
        rw [handlePost, if_neg (by simp [hleft.authenticated]), if_neg hleft.noError]
      refine ⟨by rw [Idle, hanswer]; exact hidle, iff_of_false (fun h => ?_) fun h => h hleft⟩
      have hended := h.ended (by rw [hanswer]; simp [Server.note])
      rw [hanswer] at hended
      simp [Server.note] at hended
    · have hparse := parseRequest_post (c := c) hmethod hstart
      generalize hres : parseRequest c r { s with log := [] } = res at hserve hparse
      obtain ⟨ok, s'⟩ := res
      obtain ⟨hparsing, hcomplete⟩ := hparse
      cases ok with
      | false =>
        have hserve : serve c r s = s' := hserve
        refine ⟨by rw [Idle, hserve]; exact hparsing.idle, iff_of_true (proper_of_quiet ?_) hleft⟩
        rw [hserve]
        exact hparsing.quiet
      | true =>
        have hserve : serve c r s = handlePost s' := by
          rw [hserve]
          show handleRequest c r s' = _
          rw [handleRequest, hmethod]
        rcases hcomplete rfl with ⟨hnoFile, rfl⟩ | huploaded
        · -- no file, so no success: the verdict or the error that is left over forbids it
          have hquiet : Quiet r (serve c r s).log ∧ (serve c r s).update.size = 0 := by
            rw [hserve, handlePost]
            by_cases hno : s.authenticated = false
            · rw [if_pos hno]
              exact ⟨hstart.quiet.note nofun nofun, hidle⟩
            · rw [if_neg hno]
              by_cases herr : s.update.hasError
              · rw [if_pos herr]
                exact ⟨hstart.quiet.note nofun nofun, hidle⟩
              · exact absurd ⟨hfalse, hmethod, hnoFile, by simpa using hno, herr⟩ hleft
          exact ⟨hquiet.2, iff_of_true (proper_of_quiet hquiet.1) hleft⟩
        · obtain ⟨hsize, hauthorized, hended⟩ := huploaded.handlePost
          rw [hserve]
          refine ⟨hsize, iff_of_true ⟨?_, ?_⟩ hleft⟩
          · grind
          · rw [hserve]
            exact hended
  · have hother := parseRequest_other (c := c) (s := { s with log := [] }) hmethod
    generalize parseRequest c r { s with log := [] } = res at hserve hother
    obtain ⟨ok, s'⟩ := res
    obtain rfl : s' = { s with log := [] } := hother
    have hparsing : Parsing r (serve c r s) := by
      rw [hserve]
      cases ok with
      | false => exact hstart
      | true => exact handleRequest_other hmethod hstart
    exact ⟨hparsing.idle, iff_of_true (proper_of_quiet hparsing.quiet)
      fun h => hmethod h.method⟩

end

/-- **Every run of requests**: from the start of the board on, each is handled
as it should be exactly when none meets what an earlier one left over. -/
theorem served_iff (c : Config) (verifier : Option Verifier) (chip : Chip F)
    (requests : List Request) :
    Runs.AllFit (serve c) (Proper c) requests (boot verifier chip) ↔
      Runs.AllFit (serve c) (fun r s => ¬ LeftOver r s) requests (boot verifier chip) := by
  have hboot : Idle (boot verifier chip : Server F) := rfl
  constructor
  · exact Runs.allFit_of_invariant (fun r s hidle h =>
      ⟨(serve_spec c r hidle).2.mp h, (serve_spec c r hidle).1⟩) hboot
  · exact Runs.allFit_of_invariant (fun r s hidle h =>
      ⟨(serve_spec c r hidle).2.mpr h, (serve_spec c r hidle).1⟩) hboot

def sampleConfig : Config where
  layout := Updater.sampleLayout
  username := "admin"
  password := "secret"
  username_ne := by decide
  password_ne := by decide

def abortedUpload : Request where
  method := .HTTP_POST
  authorized := true
  body := .form true [.file ⟨"filesystem", List.replicate 2049 0, .lost, Updater.sampleBegin,
    Updater.sampleEnd, Updater.sampleEnd⟩]

def emptyPost : Request where
  method := .HTTP_POST
  authorized := false
  body := .plain true

/-- The second of two requests is answered with success and a restart, though
it has no credentials and no update has ended. -/
theorem not_served :
    ¬ Runs.AllFit (serve sampleConfig) (Proper sampleConfig) [abortedUpload, emptyPost]
      (boot none (Updater.sampleChip (fun _ => false) 0)) := by
  intro h
  have hproper := h.2.1
  have hlog : (serve sampleConfig emptyPost (serve sampleConfig abortedUpload
      (boot none (Updater.sampleChip (fun _ => false) 0)))).log = [.successResponse, .restart] := by
    decide +kernel
  have hauthorized := hproper.authorized .restart (by rw [hlog]; decide) rfl
  exact absurd hauthorized (by decide)

end UpdateServer
