import DasProtokoll.Csync.Completion
import DasProtokoll.Csync.Isolation
import DasProtokoll.Csync.Layout
import DasProtokoll.Csync.LoginCodec
import DasProtokoll.Csync.Upload

/-!
# The upload of a folder

The client walks its folder and uploads one file after the other. The server has a
session for each of them, and goes on with the old ones while it opens new ones.
-/

namespace DasProtokoll.Csync

open DasProtokoll BitteEinBit

/-! ## The client -/

/-- What the walk finds below a folder, with the content of what is a file. -/
def walk (path : PathBuf) : Forest → List (PathBuf × Option Bytes)
  | .nil => []
  | .file name content rest => (path.join name, some content) :: walk path rest
  | .dir name entries rest =>
    (path.join name, none) :: (walk (path.join name) entries ++ walk path rest)

/-- The folder comes first. -/
def walkDir (folder : PathBuf) (F : Forest) : List (PathBuf × Option Bytes) :=
  (folder, none) :: walk folder F

/-- The files that the client uploads, in order. -/
def client (folder : PathBuf) (F : Forest) : List (PathBuf × Bytes) :=
  (walkDir folder F).filterMap fun file => file.2.map fun content => (file.1, content)

def clientToken : Bytes := OsString.ofString "roflcopter"

def loginOf (filename : String) (content : Bytes) : Login :=
  { clientToken, command := .UploadRequest { path := filename, length := content.length } }

/-- What the client sends first for a file. -/
def loginFor (folder path : PathBuf) (content : Bytes) : Result Login := do
  let file ← Result.unwrap (path.stripPrefix folder)
  let filename ← Result.unwrap file.toStr
  return loginOf filename content

/-! ## The client and the server -/

/-- `sessions` are the uploads so far, each with the place on the server's disk. -/
structure FolderUpload where
  waiting : List (PathBuf × Bytes)
  sessions : List (Place × Session)
  fs : FileSystem

namespace FolderUpload

inductive Event where
  | clientOnce
  | session (i : Nat) (e : Csync.Event)
  deriving Repr, DecidableEq

def Event.withReady (ready : Bool) : Event → Event
  | .clientOnce => .clientOnce
  | .session i e => .session i (e.withReady ready)

def start (folder : PathBuf) (F : Forest) (fs : FileSystem) : FolderUpload :=
  { waiting := client folder F, sessions := [], fs }

variable [Varint] (sha256 : Bytes → Bytes) (folder : PathBuf)

/-- The login of the next file arrives, once, and the listener opens a session for it. -/
def clientOnce (u : FolderUpload) : Result FolderUpload :=
  match u.waiting with
  | [] => .panic
  | (path, content) :: waiting => do
    -- The client has returned from the file before.
    Result.assert (∀ x ∈ u.sessions, x.2.client.state = .finished)
    let login ← loginFor folder path content
    let decoded ← Login.decode (login.encode.take mtu)
    let login ← Result.unwrap decoded
    let place := login.place sha256 u.fs.cwd
    let session ← Session.start content (diskAt u.fs place)
    let opened ← login.openUpload sha256 u.fs
    return { waiting, sessions := u.sessions ++ [(place, session)], fs := opened.fs }

def step (u : FolderUpload) : Event → Result FolderUpload
  | .clientOnce => u.clientOnce sha256 folder
  | .session i e => do
    let (place, s) ← Result.unwrap u.sessions[i]?
    let s ← s.tryStep e
    return {
      u with
      sessions := u.sessions.set i (place, s)
      fs := storeDisk u.fs place s.server.receiver.disk }

def Step (u : FolderUpload) (e : Event) (u' : FolderUpload) : Prop := u.step sha256 folder e = .ok u'

/-- The scheduler picks the event, and the timer answers. -/
def Play (u : FolderUpload) (e : Event) (ready : Bool) (u' : FolderUpload) : Prop :=
  Step sha256 folder u (e.withReady ready) u'

variable {sha256 folder}

theorem clientOnce_length {u u' : FolderUpload} (h : u.clientOnce sha256 folder = .ok u') :
    u'.sessions.length = u.sessions.length + 1 := by
  unfold clientOnce at h
  split at h
  · cases h
  · simp only [Result.bind_eq_ok, Result.pure_def, Result.ok.injEq] at h
    obtain ⟨_, -, _, -, _, -, _, -, _, -, _, -, rfl⟩ := h
    simp

theorem session_length {u u' : FolderUpload} {i : Nat} {e : Csync.Event}
    (h : u.step sha256 folder (.session i e) = .ok u') : u'.sessions.length = u.sessions.length := by
  simp only [step, Result.bind_eq_ok, Result.pure_def, Result.ok.injEq] at h
  obtain ⟨_, -, _, -, rfl⟩ := h
  simp

end FolderUpload

/-- The client has returned from each of its files. -/
def FolderUpload.Done (u : FolderUpload) : Prop :=
  u.waiting = [] ∧ ∀ x ∈ u.sessions, x.2.client.state = .finished

/-! ## The files of the folder -/

def below (folder : PathBuf) (path : Place) : PathBuf :=
  { folder with components := folder.components ++ path, trailing := false }

theorem filterMap_walk {F : Forest} (hF : F.WellFormed) (path : PathBuf) :
    ((walk path F).filterMap fun file => file.2.map fun content => (file.1, content)) =
      F.files.map fun f => (below path f.1, f.2) := by
  induction F generalizing path with
  | nil => rfl
  | file name content rest ih =>
    simp [walk, Forest.files, ih hF.2.2, PathBuf.join_name hF.1, below]
  | dir name entries rest ihe ih =>
    simp [walk, Forest.files, ihe hF.2.2.1, ih hF.2.2.2, PathBuf.join_name hF.1, below, Function.comp_def]

theorem client_eq {F : Forest} (hF : F.WellFormed) (folder : PathBuf) :
    client folder F = F.files.map fun f => (below folder f.1, f.2) := by
  unfold client walkDir
  rw [List.filterMap_cons]
  exact filterMap_walk hF folder

/-! ## The login of a file -/

section Login

variable {name : String} {content : Bytes} {path : Place} {folder : PathBuf}

theorem loginFor_eq (hp : ∀ n ∈ path, IsName n)
    (hname : OsString.ofString name = [PathBuf.slash].intercalate path) :
    loginFor folder (below folder path) content = .ok (loginOf name content) := by
  have hstr : PathBuf.toStr { absolute := false, components := path } = some name := by
    simp [PathBuf.toStr, PathBuf.toOsString, ← hname, OsString.fromUtf8_ofString]
  unfold loginFor below
  rw [PathBuf.stripPrefix_append folder hp]
  simp [hstr]

theorem login_read [Varint] (h64 : content.length < u64Size)
    (hfits : (loginOf name content).encode.length ≤ mtu) :
    Login.decode ((loginOf name content).encode.take mtu) = .ok (some (loginOf name content)) := by
  have htoken : clientToken.length < u64Size := by decide
  have hpath : (OsString.ofString name).length < u64Size := by
    simp only [loginOf, Login.encode, Command.encode, UploadRequest.encode, List.length_append,
      List.length_cons, mtu] at hfits
    simp only [u64Size]
    omega
  have hread := @UploadRequest.decode_encode _ { path := name, length := content.length } hpath h64 []
  have hlogin := Login.decode_append htoken (Command.encode (loginOf name content).command) []
  rw [List.append_nil] at hread hlogin
  rw [List.take_of_length_le hfits, Login.encode]
  simp only [loginOf] at hlogin ⊢
  rw [hlogin]
  simp [Command.encode, Command.decode, hread]

variable {sha256 : Bytes → Bytes} (hlen : ∀ token, (sha256 token).length = 32)

/-- Where the server keeps the files of the client. -/
def clientHome (sha256 : Bytes → Bytes) (cwd : Place) : Place :=
  cwd ++ [filesName] ++ [writeHex (sha256 clientToken)]

theorem requestPath_eq (hp : ∀ n ∈ path, IsName n)
    (hname : OsString.ofString name = [PathBuf.slash].intercalate path) :
    requestPath name = { absolute := false, components := path } := by
  simp [requestPath, hname, PathBuf.ofOsString_intercalate hp]

theorem mem_steps_names {at_ q : Place} {names : List OsString} (h : ∀ n ∈ names, IsName n) :
    q ∈ PathBuf.steps at_ names ↔ ∃ path, path ≠ [] ∧ path <+: names ∧ q = at_ ++ path := by
  rw [PathBuf.mem_steps_iff]
  apply exists_congr
  intro path
  rw [and_congr_right_iff]
  intro _
  apply and_congr_right
  intro hpath
  rw [PathBuf.foldl_push_names fun n hn => h n (hpath.subset hn)]

include hlen

theorem place_loginOf (hp : ∀ n ∈ path, IsName n)
    (hname : OsString.ofString name = [PathBuf.slash].intercalate path) (cwd : Place) :
    (loginOf name content).place sha256 cwd = clientHome sha256 cwd ++ path := by
  rw [Login.place_eq hlen, Login.home_eq hlen]
  simp only [loginOf, Login.req, requestPath_eq hp hname, PathBuf.foldl_push_names hp]
  rfl

theorem mem_directories_loginOf (hp : ∀ n ∈ path, IsName n)
    (hname : OsString.ofString name = [PathBuf.slash].intercalate path) {cwd q : Place} :
    q ∈ (loginOf name content).directories sha256 cwd ↔
      q ∈ [cwd, cwd ++ [filesName], clientHome sha256 cwd] ∨
        ∃ way, way ≠ [] ∧ way <+: path ∧ q = clientHome sha256 cwd ++ way := by
  rw [Login.directories_eq hlen, Login.home_eq hlen]
  simp only [loginOf, Login.req, requestPath_eq hp hname, List.mem_append, mem_steps_names hp]
  rfl

omit hlen in
theorem ne_below {cwd q : Place} (hq : q ∈ [cwd, cwd ++ [filesName], clientHome sha256 cwd]) (n : OsString)
    (way : Place) : q ≠ clientHome sha256 cwd ++ n :: way := by
  intro heq
  have hlength := congrArg List.length heq
  simp only [List.mem_cons, List.not_mem_nil, or_false] at hq
  rcases hq with rfl | rfl | rfl <;> simp [clientHome] at hlength

theorem mem_directories_inside (hp : ∀ n ∈ path, IsName n)
    (hname : OsString.ofString name = [PathBuf.slash].intercalate path) {cwd : Place} (n : OsString)
    (way : Place) : clientHome sha256 cwd ++ n :: way ∈ (loginOf name content).directories sha256 cwd ↔
      clientHome sha256 cwd ++ n :: way <+: clientHome sha256 cwd ++ path := by
  rw [mem_directories_loginOf hlen hp hname, List.prefix_append_right_inj]
  constructor
  · rintro (hq | ⟨way', -, hway, heq⟩)
    · exact absurd rfl (ne_below hq n way)
    · exact List.append_cancel_left heq ▸ hway
  · exact fun hway => Or.inr ⟨_, by simp, hway, rfl⟩

omit hlen in
theorem openUpload_node {login : Login} {fs : FileSystem} {u : Upload}
    (h : login.openUpload sha256 fs = .ok u) :
    ∃ r, Receiver.uploadRequest (diskAt fs (login.place sha256 fs.cwd)) login.req.length = .ok r ∧
      u.fs.cwd = fs.cwd ∧ ∀ q, u.fs.node q =
        if q = login.place sha256 fs.cwd ++ [fileName] then r.disk.file.map .file
        else if q = login.place sha256 fs.cwd ++ [bitmapName] then r.disk.bitmap.map .file
        else if q ∈ login.directories sha256 fs.cwd then some .dir else fs.node q := by
  obtain ⟨u, hu, h⟩ := Result.bind_eq_ok.mp h
  rw [Result.pure_def, Result.ok.injEq] at h
  subst h
  obtain ⟨hmade, hwritten, hreceiver, -⟩ := storeUpload_ok hu
  have hmade : ∀ q, q ∈ u.made ↔ q ∈ login.directories sha256 fs.cwd ∧ fs.node q ≠ some .dir := hmade
  obtain ⟨hcwd, -, hframe⟩ := storeUpload_frame hu
  obtain ⟨hfile, hbitmap⟩ := storeUpload_written hu
  refine ⟨u.receiver, hreceiver, hcwd, fun q => ?_⟩
  split
  · rename_i hq
    rw [hq]
    exact hfile
  · split
    · rename_i hq
      rw [hq]
      exact hbitmap
    · rename_i hnofile hnobitmap
      have hother : q ∉ u.written := by
        rw [hwritten]
        simpa using ⟨hnobitmap, hnofile⟩
      simp only [hframe q hother, hmade]
      split
      · rename_i hq
        rw [if_pos hq.1]
      · rename_i hq
        split
        · rename_i hway
          exact not_not.mp fun hnode => hq ⟨hway, hnode⟩
        · rfl

end Login

/-! ## One file -/

def noDisk : Disk := { bitmap := none, file := none }

/-- The last chunk carries the end of the file, or there are only zeroes. -/
def Storable (content : Bytes) : Prop :=
  ∀ info, indexFieldSize content.length = .ok info → content.length % info.chunkSize = 0 →
    AgreeOn (resize 0 [] content.length) content ((info.numChunks - 1) * info.chunkSize) content.length

/-- The listener gets the login of the file. -/
structure Sendable [Varint] (f : Place × Bytes) : Prop where
  size : f.2.length < u64Size
  login : ∃ name, OsString.ofString name = [PathBuf.slash].intercalate f.1 ∧
    (loginOf name f.2).encode.length ≤ mtu

section Session

variable [Varint] {content : Bytes} {s₀ s : Session}

theorem stored_of_full (h64 : content.length < u64Size) (hlast : Storable content)
    (h0 : Session.start content noDisk = .ok s₀) (hr : Reachable Session.Step s₀ s)
    (hfull : Full s.server.receiver.bitmap) : s.server.receiver.file = content := by
  obtain ⟨info, hinfo, g⟩ := indexFieldSize_spec h64
  obtain ⟨hs, hstore⟩ := reachable_store g h64 hinfo rfl h0 hr
  refine file_eq_of_slots g hstore.length fun i hi => ?_
  exact hstore.stored_slots g (hlast info hinfo) hi (hfull i (by rwa [hs.receiver.numBits]))

omit [Varint] in
theorem start_disk {disk : Disk} {r : Receiver} (h : Session.start content disk = .ok s)
    (hr : Receiver.uploadRequest disk content.length = .ok r) : s.server.receiver.disk = r.disk := by
  simp only [Session.start, Server.new, Receiver.new, hr, Result.bind_ok, Result.pure_def, Result.bind_eq_ok,
    Result.ok.injEq] at h
  obtain ⟨_, -, _, rfl, rfl⟩ := h
  rfl

end Session

/-! ## All files -/

/-- A file and the session of its upload. -/
structure Uploads [Varint] (home : Place) (f : Place × Bytes) (x : Place × Session) : Prop where
  place : x.1 = home ++ f.1
  run : ∃ s₀, Session.start f.2 noDisk = .ok s₀ ∧ Reachable Session.Step s₀ x.2

namespace FolderUpload

def disks (u : FolderUpload) : List (Place × Disk) :=
  u.sessions.map fun x => (x.1, x.2.server.receiver.disk)

/-- How far the upload has come. -/
structure Inv [Varint] (home : Place) (fs₀ : FileSystem) (folder : PathBuf) (F : Forest)
    (started rest : List (Place × Bytes)) (u : FolderUpload) : Prop where
  files : F.files = started ++ rest
  waiting : u.waiting = rest.map fun f => (below folder f.1, f.2)
  sessions : List.Forall₂ (Uploads home) started u.sessions
  cwd : u.fs.cwd = fs₀.cwd
  inside : ∀ name path, u.fs.node (home ++ name :: path) = layout u.disks (home ++ name :: path)
  outside : ∀ q, (∀ name path, q ≠ home ++ name :: path) →
    u.fs.node q = fs₀.node q ∨ u.fs.node q = some .dir

section Invariant

variable [Varint] {sha256 : Bytes → Bytes} {folder : PathBuf} {F : Forest} {fs₀ : FileSystem} {home : Place}
  {started rest : List (Place × Bytes)} {f : Place × Bytes} {u u' : FolderUpload} {s s' : Session}

theorem start_inv (hF : F.WellFormed) (hfresh : ∀ name path, fs₀.node (home ++ name :: path) = none) :
    Inv home fs₀ folder F [] F.files (start folder F fs₀) where
  files := rfl
  waiting := client_eq hF folder
  sessions := .nil
  cwd := rfl
  inside := hfresh
  outside _ _ := Or.inl rfl

theorem map_places {sessions : List (Place × Session)}
    (h : List.Forall₂ (Uploads home) started sessions) :
    sessions.map (·.1) = started.map fun f => home ++ f.1 := by
  induction h with
  | nil => rfl
  | cons hx _ ih => simp [hx.place, ih]

theorem Inv.places (hi : Inv home fs₀ folder F started rest u) :
    u.sessions.map (·.1) = started.map fun f => home ++ f.1 :=
  map_places hi.sessions

theorem Inv.apart (hi : Inv home fs₀ folder F started rest u) (hF : F.WellFormed) :
    (u.sessions.map (·.1) ++ rest.map fun f => home ++ f.1).Pairwise Apart := by
  have hfiles := Forest.files_apart hF
  rw [hi.files] at hfiles
  rw [hi.places, ← List.map_append, List.pairwise_map]
  exact hfiles.imp fun h => apart_append.mpr h

theorem Inv.apart_next (hi : Inv home fs₀ folder F started (f :: rest) u) (hF : F.WellFormed) :
    ∀ x ∈ u.disks, Apart x.1 (home ++ f.1) := by
  have hapart := (List.pairwise_append.mp (hi.apart hF)).2.2
  intro x hx
  obtain ⟨y, hy, rfl⟩ := List.mem_map.mp hx
  exact hapart _ (List.mem_map_of_mem hy) _ (by simp)

/-! ## The session of one file goes on -/

omit [Varint] in
theorem forall₂_replace {α β : Type} {R : α → β → Prop} {l : List α} {l₁ l₂ : List β} {x x' : β}
    (h : List.Forall₂ R l (l₁ ++ x :: l₂)) (hx : ∀ a, R a x → R a x') :
    List.Forall₂ R l (l₁ ++ x' :: l₂) := by
  induction l₁ generalizing l with
  | nil =>
    obtain ⟨a, l, ha, hl, rfl⟩ := List.forall₂_cons_right_iff.mp h
    exact .cons (hx a ha) hl
  | cons y l₁ ih =>
    obtain ⟨a, l, ha, hl, rfl⟩ := List.forall₂_cons_right_iff.mp h
    exact .cons ha (ih hl)

omit [Varint] in
theorem exists_of_forall₂ {α β : Type} {R : α → β → Prop} {l : List α} {l' : List β} {x : β}
    (h : List.Forall₂ R l l') (hx : x ∈ l') : ∃ a ∈ l, R a x := by
  induction h with
  | nil => cases hx
  | cons ha _ ih =>
    rcases List.mem_cons.mp hx with rfl | hx
    · exact ⟨_, List.mem_cons_self, ha⟩
    · obtain ⟨a, hmem, ha⟩ := ih hx
      exact ⟨a, List.mem_cons_of_mem _ hmem, ha⟩

omit [Varint] in
theorem snoc_below (home p : Place) (name : OsString) :
    ∃ n path, home ++ p ++ [name] = home ++ n :: path := by
  cases p with
  | nil => exact ⟨name, [], by simp⟩
  | cons n p => exact ⟨n, p ++ [name], by simp⟩

theorem Inv.uploads (hi : Inv home fs₀ folder F started rest u) {x : Place × Session} (hx : x ∈ u.sessions) :
    ∃ f ∈ F.files, Uploads home f x := by
  obtain ⟨f, hf, hrun⟩ := exists_of_forall₂ hi.sessions hx
  exact ⟨f, by simp [hi.files, hf], hrun⟩

theorem Inv.place (hi : Inv home fs₀ folder F started rest u) {x : Place × Session} (hx : x ∈ u.sessions)
    (name : OsString) : ∃ n path, x.1 ++ [name] = home ++ n :: path := by
  obtain ⟨f, -, hrun⟩ := hi.uploads hx
  rw [hrun.place]
  exact snoc_below home f.1 name

/-- The session at the place has become another one. -/
def put (u : FolderUpload) (place : Place) (l₁ l₂ : List (Place × Session)) (s : Session) : FolderUpload := {
  u with
  sessions := l₁ ++ (place, s) :: l₂
  fs := storeDisk u.fs place s.server.receiver.disk }

theorem Inv.session (hi : Inv home fs₀ folder F started rest u) (hF : F.WellFormed) {place : Place}
    {l₁ l₂ : List (Place × Session)} (hsplit : u.sessions = l₁ ++ (place, s) :: l₂)
    (hrun : Reachable Session.Step s s') :
    Inv home fs₀ folder F started rest (u.put place l₁ l₂ s') := by
  have hapart := (List.pairwise_append.mp (hi.apart hF)).1
  rw [hsplit, List.map_append, List.map_cons, List.pairwise_append, List.pairwise_cons] at hapart
  obtain ⟨-, ⟨hafter, -⟩, hbefore⟩ := hapart
  have h₁ : ∀ x ∈ l₁.map fun x => (x.1, x.2.server.receiver.disk), Apart x.1 place := by
    intro x hx
    obtain ⟨y, hy, rfl⟩ := List.mem_map.mp hx
    exact hbefore _ (List.mem_map_of_mem hy) _ List.mem_cons_self
  have h₂ : ∀ x ∈ l₂.map fun x => (x.1, x.2.server.receiver.disk), Apart x.1 place := by
    intro x hx
    obtain ⟨y, hy, rfl⟩ := List.mem_map.mp hx
    exact (hafter _ (List.mem_map_of_mem hy)).symm
  have hmem : (place, s) ∈ u.sessions := by simp [hsplit]
  refine ⟨hi.files, hi.waiting, ?_, hi.cwd, fun name path => ?_, fun q hq => ?_⟩
  · have hall := hi.sessions
    rw [hsplit] at hall
    refine forall₂_replace hall fun f hf => ⟨hf.place, ?_⟩
    obtain ⟨s₀, h0, hr⟩ := hf.run
    exact ⟨s₀, h0, hr.trans hrun⟩
  · have hinside := hi.inside name path
    simp only [disks, put, hsplit, List.map_append, List.map_cons] at hinside ⊢
    rw [storeDisk_node, hinside]
    exact (layout_set h₁ h₂).symm
  · have hne (name : OsString) : q ≠ place ++ [name] := by
      obtain ⟨n, path, hpath⟩ := hi.place hmem name
      exact hpath ▸ hq n path
    rw [put, storeDisk_node, if_neg (hne _), if_neg (hne _)]
    exact hi.outside q hq

/-! ## The next file -/

theorem clientOnce_eq (hlen : ∀ token, (sha256 token).length = 32) {waiting : List (PathBuf × Bytes)}
    (hwaiting : u.waiting = (below folder f.1, f.2) :: waiting) (hp : ∀ n ∈ f.1, IsName n)
    (h64 : f.2.length < u64Size) {name : String}
    (hname : OsString.ofString name = [PathBuf.slash].intercalate f.1)
    (hfits : (loginOf name f.2).encode.length ≤ mtu) :
    u.clientOnce sha256 folder = (do
      Result.assert (∀ x ∈ u.sessions, x.2.client.state = .finished)
      let session ← Session.start f.2 (diskAt u.fs (clientHome sha256 u.fs.cwd ++ f.1))
      let opened ← (loginOf name f.2).openUpload sha256 u.fs
      return {
        waiting
        sessions := u.sessions ++ [(clientHome sha256 u.fs.cwd ++ f.1, session)]
        fs := opened.fs }) := by
  unfold clientOnce
  rw [hwaiting]
  simp only [loginFor_eq hp hname, Result.bind_ok, login_read h64 hfits, Result.unwrap_some,
    place_loginOf hlen hp hname]

theorem Inv.new (hi : Inv home fs₀ folder F started (f :: rest) u) (hF : F.WellFormed) (name : OsString) :
    u.fs.node (home ++ f.1 ++ [name]) = none := by
  rw [← layout_apart (hi.apart_next hF) name]
  obtain ⟨n, path, hpath⟩ := snoc_below home f.1 name
  rw [hpath]
  exact hi.inside n path

theorem Inv.noDisk (hi : Inv home fs₀ folder F started (f :: rest) u) (hF : F.WellFormed) :
    diskAt u.fs (home ++ f.1) = noDisk := by
  simp only [diskAt, Csync.noDisk, FileSystem.content, hi.new hF]

theorem Inv.clientOnce (hlen : ∀ token, (sha256 token).length = 32) (hhome : home = clientHome sha256 fs₀.cwd)
    (hi : Inv home fs₀ folder F started rest u) (hF : F.WellFormed) (hsend : ∀ f ∈ F.files, Sendable f)
    (h : u.clientOnce sha256 folder = .ok u') :
    ∃ f rest', rest = f :: rest' ∧ (∀ x ∈ u.sessions, x.2.client.state = .finished) ∧
      Inv home fs₀ folder F (started ++ [f]) rest' u' := by
  cases rest with
  | nil =>
    unfold FolderUpload.clientOnce at h
    rw [hi.waiting] at h
    cases h
  | cons f rest =>
    have hmem : f ∈ F.files := by simp [hi.files]
    have hp := Forest.files_isName hF hmem
    obtain ⟨h64, name, hname, hfits⟩ := hsend f hmem
    rw [clientOnce_eq hlen hi.waiting hp h64 hname hfits, hi.cwd, ← hhome, hi.noDisk hF] at h
    simp only [Result.bind_eq_ok, Result.assert_eq_ok, Result.pure_def, Result.ok.injEq] at h
    obtain ⟨_, hfinished, session, hsession, opened, hopened, rfl⟩ := h
    obtain ⟨r, hreceiver, hcwd, hnode⟩ := openUpload_node hopened
    rw [place_loginOf hlen hp hname, hi.cwd, ← hhome] at hreceiver hnode
    rw [hi.noDisk hF] at hreceiver
    have hdisk := start_disk hsession hreceiver
    refine ⟨f, rest, rfl, hfinished, by simp [hi.files], rfl,
      List.rel_append hi.sessions (.cons ⟨rfl, _, hsession, .refl⟩ .nil), hcwd.trans hi.cwd,
      fun n path => ?_, fun q hq => ?_⟩
    · have hway := @mem_directories_inside name f.2 f.1 sha256 hlen hp hname fs₀.cwd n path
      rw [← hhome] at hway
      have hsnoc : disks { waiting := rest.map fun f => (below folder f.1, f.2)
                           sessions := u.sessions ++ [(home ++ f.1, session)]
                           fs := opened.fs } = u.disks ++ [(home ++ f.1, session.server.receiver.disk)] := by
        simp [disks]
      rw [hsnoc, layout_snoc (hi.apart_next hF), hnode, hdisk]
      simp only [hway, hi.inside]
    · have hne (name : OsString) : q ≠ home ++ f.1 ++ [name] := by
        obtain ⟨n, path, hpath⟩ := snoc_below home f.1 name
        exact hpath ▸ hq n path
      rw [hnode, if_neg (hne _), if_neg (hne _)]
      split
      · exact Or.inr rfl
      · exact hi.outside q hq

/-! ## The system -/

theorem Inv.step (hlen : ∀ token, (sha256 token).length = 32) (hhome : home = clientHome sha256 fs₀.cwd)
    (hi : Inv home fs₀ folder F started rest u) (hF : F.WellFormed) (hsend : ∀ f ∈ F.files, Sendable f)
    {e : Event} (h : Step sha256 folder u e u') :
    ∃ started' rest', Inv home fs₀ folder F started' rest' u' := by
  cases e with
  | clientOnce =>
    obtain ⟨f, rest', -, -, hi'⟩ := hi.clientOnce hlen hhome hF hsend h
    exact ⟨_, _, hi'⟩
  | session i e =>
    obtain ⟨⟨place, s⟩, hx, h⟩ := Result.bind_eq_ok.mp h
    obtain ⟨s', hstep, h⟩ := Result.bind_eq_ok.mp h
    rw [Result.unwrap_eq_ok, List.getElem?_eq_some_iff] at hx
    rw [Result.pure_def, Result.ok.injEq] at h
    obtain ⟨hlt, hx⟩ := hx
    have hsplit : u.sessions = u.sessions.take i ++ (place, s) :: u.sessions.drop (i + 1) := by
      rw [← hx, List.getElem_cons_drop, List.take_append_drop]
    have hi' := hi.session hF hsplit (Reachable.refl.snoc (Session.step_of_tryStep hstep))
    rw [List.set_eq_take_append_cons_drop, if_pos hlt] at h
    subst h
    exact ⟨_, _, hi'⟩

end Invariant

end FolderUpload

end DasProtokoll.Csync
