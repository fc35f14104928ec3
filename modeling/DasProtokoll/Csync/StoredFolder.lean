import DasProtokoll.Csync.FolderUpload

/-!
# The folder on the server

When the client has returned, the server keeps its tree, whatever got lost on the
way. And the client can always be made to return.
-/

namespace DasProtokoll.Csync

open DasProtokoll BitteEinBit

/-! ## What the server keeps -/

/-- Each file is a directory with the file in it. Directories without files are not there. -/
def stored : Forest → Forest
  | .nil => .nil
  | .file name content rest => .dir name (.file fileName content .nil) (stored rest)
  | .dir name entries rest =>
    if stored entries = .nil then stored rest else .dir name (stored entries) (stored rest)

def kept (f : Place × Bytes) : Place × Disk := (f.1, { bitmap := none, file := some f.2 })

section Stored

variable {F : Forest} {l : List (Place × Disk)}

theorem stored_eq_nil : stored F = .nil ↔ F.files = [] := by
  induction F with
  | nil => simp [stored, Forest.files]
  | file name content rest _ => simp [stored, Forest.files]
  | dir name entries rest ihe ih =>
    unfold stored
    split
    · rename_i hnil
      simp [Forest.files, ihe.mp hnil, ih]
    · rename_i hne
      simp [Forest.files, mt ihe.mpr hne]

theorem names_stored : (stored F).names ⊆ F.names := by
  induction F with
  | nil => simp [stored]
  | file name content rest ih => simpa [stored, Forest.names] using List.cons_subset_cons name ih
  | dir name entries rest _ ih =>
    unfold stored
    split
    · exact fun n hn => List.mem_cons_of_mem name (ih hn)
    · simpa [Forest.names] using List.cons_subset_cons name ih

theorem layout_below (name : OsString) (path : Place) :
    layout (l.map fun x => (name :: x.1, x.2)) (name :: path) = layout l path := by
  induction l with
  | nil => rfl
  | cons x l ih =>
    have hx : entry (name :: x.1, x.2) (name :: path) = entry x path := entry_below [name]
    rw [List.map_cons, layout_cons, layout_cons, ih, hx]

theorem layout_elsewhere {name n : OsString} (h : n ≠ name) (path : Place) :
    layout (l.map fun x => (name :: x.1, x.2)) (n :: path) = none := by
  induction l with
  | nil => rfl
  | cons x l ih =>
    rw [List.map_cons, layout_cons, ih]
    simp [entry, h, List.cons_prefix_cons]

theorem layout_root (hne : l ≠ []) : layout l [] = some .dir := by
  obtain ⟨x, l, rfl⟩ := List.exists_cons_of_ne_nil hne
  simp [layout_cons, entry]

theorem layout_stored (hF : F.WellFormed) (n : OsString) (path : Place) :
    layout (F.files.map kept) (n :: path) = (stored F).lookup (n :: path) := by
  induction F generalizing n path with
  | nil => rfl
  | file name content rest ih =>
    have hrest := ih hF.2.2 n path
    rw [Forest.files, List.map_cons, layout_cons, hrest, stored, Forest.lookup]
    by_cases hn : n = name
    · subst hn
      have hnone : (stored rest).lookup (n :: path) = none :=
        Forest.lookup_of_notMem (fun hmem => hF.2.1 (names_stored hmem)) path
      rw [if_pos rfl, hnone, Option.or_none]
      cases path with
      | nil => simp [entry, kept, Forest.lookup]
      | cons m path =>
        by_cases hm : m = fileName
        · by_cases hpath : path = [] <;>
            simp [entry, kept, Forest.lookup, hm, hpath, bitmapName_ne_fileName.symm]
        · simp [entry, kept, Forest.lookup, hm]
    · simp [entry, kept, hn, List.cons_prefix_cons]
  | dir name entries rest ihe ih =>
    have hrest := ih hF.2.2.2 n path
    have hmap : (entries.files.map fun f => (name :: f.1, f.2)).map kept =
        (entries.files.map kept).map fun x => (name :: x.1, x.2) := by
      simp [kept, Function.comp_def]
    rw [Forest.files, List.map_append, layout_append, hrest, hmap]
    by_cases hnil : stored entries = .nil
    · rw [stored, if_pos hnil, stored_eq_nil.mp hnil]
      rfl
    · rw [stored, if_neg hnil, Forest.lookup]
      by_cases hn : n = name
      · subst hn
        have hnone : (stored rest).lookup (n :: path) = none :=
          Forest.lookup_of_notMem (fun hmem => hF.2.1 (names_stored hmem)) path
        rw [if_pos rfl, hnone, Option.or_none, layout_below]
        cases path with
        | nil =>
          rw [layout_root (by simpa using mt stored_eq_nil.mpr hnil)]
          cases stored entries <;> rfl
        | cons m path => exact ihe hF.2.2.1 m path
      · rw [if_neg hn, layout_elsewhere hn, Option.none_or]

end Stored

/-! ## When the client has returned -/

section Uploaded

variable [Varint] {home : Place} {f : Place × Bytes} {x : Place × Session} {n : OsString} {path : Place}

theorem Uploads.entry_eq (hx : Uploads home f x) (h64 : f.2.length < u64Size) (hlast : Storable f.2)
    (hfinished : x.2.client.state = .finished)
    (hq : path ≠ f.1 ++ [bitmapName] ∨ x.2.server.receiver.bitmapExists = false) :
    entry (x.1, x.2.server.receiver.disk) (home ++ path) = entry (kept f) path := by
  obtain ⟨s₀, h0, hr⟩ := hx.run
  obtain ⟨info, hinfo, g, hs⟩ := session_inv h64 h0 hr
  have hfile := stored_of_full h64 hlast h0 hr (hs.finished hfinished)
  rw [hx.place, entry_below]
  unfold entry kept Receiver.disk
  rcases hq with hq | hq
  · simp only [hfile, if_neg hq]
  · simp only [hfile, hq, Bool.false_eq_true, if_false]

theorem layout_uploads {files : List (Place × Bytes)} {sessions : List (Place × Session)}
    (h : List.Forall₂ (Uploads home) files sessions) (h64 : ∀ f ∈ files, f.2.length < u64Size)
    (hlast : ∀ f ∈ files, Storable f.2) (hfinished : ∀ x ∈ sessions, x.2.client.state = .finished)
    (hq : (∀ f ∈ files, path ≠ f.1 ++ [bitmapName]) ∨
      ∀ x ∈ sessions, x.2.server.receiver.bitmapExists = false) :
    layout (sessions.map fun x => (x.1, x.2.server.receiver.disk)) (home ++ path) =
      layout (files.map kept) path := by
  induction h with
  | nil => rfl
  | cons hx _ ih =>
    simp only [List.forall_mem_cons] at h64 hlast hfinished hq
    rw [List.map_cons, List.map_cons, layout_cons, layout_cons,
      hx.entry_eq h64.1 hlast.1 hfinished.1 (hq.imp And.left And.left),
      ih h64.2 hlast.2 hfinished.2 (hq.imp And.right And.right)]

variable {sha256 : Bytes → Bytes} {folder : PathBuf} {F : Forest} {fs₀ : FileSystem} {u : FolderUpload}
  {started rest : List (Place × Bytes)}

theorem FolderUpload.Inv.tree (hi : Inv home fs₀ folder F started rest u) (hF : F.WellFormed)
    (hsend : ∀ f ∈ F.files, Sendable f) (hlast : ∀ f ∈ F.files, Storable f.2) (hdone : u.Done)
    (hq : (∀ f ∈ F.files, n :: path ≠ f.1 ++ [bitmapName]) ∨
      ∀ x ∈ u.sessions, x.2.server.receiver.bitmapExists = false) :
    u.fs.node (home ++ n :: path) = (stored F).lookup (n :: path) := by
  obtain ⟨hwaiting, hfinished⟩ := hdone
  have hall := hi.sessions
  rw [hi.waiting, List.map_eq_nil_iff] at hwaiting
  have hstarted : started = F.files := by rw [hi.files, hwaiting, List.append_nil]
  rw [hstarted] at hall
  rw [hi.inside, ← layout_stored hF]
  exact layout_uploads hall (fun f hf => (hsend f hf).size) hlast hfinished hq

end Uploaded

/-! ## How the client is made to return -/

/-- The server takes the upload of the file. -/
structure Uploadable [Varint] (f : Place × Bytes) : Prop extends Sendable f where
  nonempty : f.2 ≠ []
  noNul : 0 ∉ [PathBuf.slash].intercalate f.1

section Completes

variable [Varint]

theorem start_noDisk {content : Bytes} (h64 : content.length < u64Size) (hne : content ≠ []) :
    ∃ s₀, Session.start content noDisk = .ok s₀ ∧
      Varint.lenAll (runs s₀.server.receiver.bitmap.toBools) ≤ mtu := by
  obtain ⟨info, hinfo, g⟩ := indexFieldSize_spec h64
  have hpos : 0 < info.numChunks := by
    have hlength := List.length_pos_of_ne_nil hne
    have hle := g.length_le
    exact Nat.pos_of_ne_zero fun hz => by rw [hz, Nat.zero_mul] at hle; omega
  have hfresh : noDisk.bitmap = none := rfl
  obtain ⟨m, -, hnum, hbits, hstart⟩ := start_fresh hinfo hfresh hpos
  refine ⟨_, hstart, ?_⟩
  have hzeros : m.toBools = List.replicate m.numBits false := by
    apply List.eq_replicate_iff.mpr
    refine ⟨BitMap.toBools_length m, ?_⟩
    simp [BitMap.toBools, hbits]
  have hzero := Varint.len_le 0
  have hlen := Varint.len_le m.numBits
  rw [hzeros, runs_replicate_false (by omega)]
  simp only [Varint.lenAll_cons, Varint.lenAll_nil, mtu]
  omega

namespace FolderUpload

variable {sha256 : Bytes → Bytes} {folder : PathBuf} {F : Forest} {fs₀ : FileSystem} {home : Place}
  {started rest : List (Place × Bytes)} {f : Place × Bytes} {u : FolderUpload}

theorem Inv.openUpload_total (hlen : ∀ token, (sha256 token).length = 32)
    (hhome : home = clientHome sha256 fs₀.cwd) (hi : Inv home fs₀ folder F started (f :: rest) u)
    (hF : F.WellFormed) (hf : Uploadable f)
    (hway : ∀ q ∈ [fs₀.cwd, fs₀.cwd ++ [filesName], home], ∀ c, fs₀.node q ≠ some (.file c)) {name : String}
    (hname : OsString.ofString name = [PathBuf.slash].intercalate f.1) :
    ∃ opened, (loginOf name f.2).openUpload sha256 u.fs = .ok opened := by
  have hmem : f ∈ F.files := by simp [hi.files]
  have hp := Forest.files_isName hF hmem
  have hplace := @place_loginOf name f.2 f.1 sha256 hlen hp hname u.fs.cwd
  have hdirs (q : Place) : q ∈ (loginOf name f.2).directories sha256 u.fs.cwd ↔
      q ∈ [fs₀.cwd, fs₀.cwd ++ [filesName], home] ∨
        ∃ way, way ≠ [] ∧ way <+: f.1 ∧ q = home ++ way := by
    rw [mem_directories_loginOf hlen hp hname, hi.cwd, ← hhome]
  rw [hi.cwd, ← hhome, ← hi.cwd] at hplace
  -- No file is in the way.
  have hclear : ∀ q ∈ (loginOf name f.2).directories sha256 u.fs.cwd, ∀ c, u.fs.node q ≠ some (.file c) := by
    intro q hq c
    rcases (hdirs q).mp hq with hq | ⟨path, hne, hpath, rfl⟩
    · rcases hi.outside q fun n path => hhome ▸ ne_below (hhome ▸ hq) n path with hout | hout
      · exact hout ▸ hway q hq c
      · simp [hout]
    · obtain ⟨n, path, rfl⟩ := List.exists_cons_of_ne_nil hne
      have hpre : home ++ n :: path <+: home ++ f.1 := (List.prefix_append_right_inj home).mpr hpath
      rw [hi.inside]
      rcases layout_on_way (hi.apart_next hF) hpre with hl | hl <;> simp [hl]
  have hlast : ((loginOf name f.2).path sha256).components.getLast? ≠ some PathBuf.dot := by
    obtain ⟨front, n, hfront⟩ := List.eq_nil_or_concat f.1 |>.resolve_left (Forest.files_ne_nil hmem)
    have hn := (hp n (by simp [hfront])).ne_dot
    rw [Login.path_eq hlen]
    simp only [loginOf, Login.req, requestPath_eq hp hname, hfront]
    rw [List.concat_eq_append, ← List.append_assoc, List.getLast?_concat]
    exact fun heq => hn (Option.some.inj heq)
  obtain ⟨⟨fs', made⟩, hmade⟩ := FileSystem.makeDirs_total hlast hclear
  obtain ⟨hplaces, -, hnode⟩ := FileSystem.createDirAll_ok hmade
  have hdir : fs'.node (home ++ f.1) = some .dir := by
    have hlast := (hdirs (home ++ f.1)).mpr (Or.inr ⟨f.1, Forest.files_ne_nil hmem, List.prefix_rfl, rfl⟩)
    rw [hnode]
    split
    · rfl
    · rename_i hnot
      by_contra hne
      exact hnot ((hplaces _).mpr ⟨hlast, hne⟩)
  have hnew (name : OsString) : fs'.node (home ++ f.1 ++ [name]) = none := by
    rw [hnode, if_neg, hi.new hF]
    intro hmade
    obtain ⟨n, path, hpath⟩ := snoc_below home f.1 name
    rcases (hdirs _).mp ((hplaces _).mp hmade).1 with hq | ⟨way, -, hway, heq⟩
    · exact ne_below (hhome ▸ hq) n path (hhome ▸ hpath)
    · rw [List.append_assoc] at heq
      obtain rfl := List.append_cancel_left heq
      simpa using hway.length_le
  have hreq : uploadPlace u.fs ((loginOf name f.2).folder sha256) (loginOf name f.2).req =
    home ++ f.1 := hplace
  rw [← hreq] at hdir hnew
  obtain ⟨opened, hopened⟩ := storeUpload_total hf.size (List.length_pos_of_ne_nil hf.nonempty)
    (hname.symm ▸ hf.noNul) hmade hdir hnew
  exact ⟨_, by rw [Login.openUpload, hopened]; rfl⟩

theorem Inv.clientOnce_total (hlen : ∀ token, (sha256 token).length = 32)
    (hhome : home = clientHome sha256 fs₀.cwd) (hi : Inv home fs₀ folder F started (f :: rest) u)
    (hF : F.WellFormed) (hf : Uploadable f)
    (hway : ∀ q ∈ [fs₀.cwd, fs₀.cwd ++ [filesName], home], ∀ c, fs₀.node q ≠ some (.file c))
    (hfinished : ∀ x ∈ u.sessions, x.2.client.state = .finished) :
    ∃ u', u.clientOnce sha256 folder = .ok u' := by
  have hmem : f ∈ F.files := by simp [hi.files]
  obtain ⟨name, hname, hfits⟩ := hf.login
  obtain ⟨s₀, hstart, -⟩ := start_noDisk hf.size hf.nonempty
  obtain ⟨opened, hopened⟩ := hi.openUpload_total hlen hhome hF hf hway hname
  have honce := clientOnce_eq hlen hi.waiting (Forest.files_isName hF hmem) hf.size hname hfits
  rw [hi.cwd, ← hhome, hi.noDisk hF, hstart, hopened, Result.assert_of hfinished] at honce
  exact ⟨_, honce⟩

theorem Inv.put_self (hi : Inv home fs₀ folder F started rest u) (hF : F.WellFormed) {place : Place}
    {s : Session} {l₁ l₂ : List (Place × Session)} (hsplit : u.sessions = l₁ ++ (place, s) :: l₂) :
    u.put place l₁ l₂ s = u := by
  have hput := hi.session hF hsplit .refl
  have hmem : (place, s) ∈ u.sessions := by simp [hsplit]
  have hsame : (u.put place l₁ l₂ s).disks = u.disks := by simp [disks, put, hsplit]
  have hstored : storeDisk u.fs place s.server.receiver.disk = u.fs := by
    have hnode (name : OsString) :
        u.fs.node (place ++ [name]) = (u.put place l₁ l₂ s).fs.node (place ++ [name]) := by
      obtain ⟨n, path, hpath⟩ := hi.place hmem name
      rw [hpath, hi.inside, hput.inside, hsame]
    apply storeDisk_self
    · rw [hnode, put, storeDisk_node, if_pos rfl]
    · rw [hnode, put, storeDisk_node, if_neg (by simp [bitmapName_ne_fileName]), if_pos rfl]
  unfold put
  rw [hstored, ← hsplit]

theorem put_step {place : Place} {s t : Session} {l₁ l₂ : List (Place × Session)} {e : Csync.Event}
    {ready : Bool} (h : Session.Play s e ready t) :
    Play sha256 folder (u.put place l₁ l₂ s) (.session l₁.length e) ready (u.put place l₁ l₂ t) := by
  unfold Play Step step put
  simp [Event.withReady, Session.tryStep_of h.1, h.2, storeDisk_storeDisk]

theorem Inv.finish_session (hi : Inv home fs₀ folder F started rest u) (hF : F.WellFormed)
    (hup : ∀ f ∈ F.files, Uploadable f) {place : Place} {s : Session} {l₁ l₂ : List (Place × Session)}
    (hsplit : u.sessions = l₁ ++ (place, s) :: l₂) :
    Forces (Play sha256 folder) (fun v => Inv home fs₀ folder F started rest v ∧
      ∃ t, Session.Completed t ∧ v.sessions = l₁ ++ (place, t) :: l₂) u := by
  obtain ⟨f, hf, hrun⟩ := hi.uploads (hsplit ▸ by simp : (place, s) ∈ u.sessions)
  obtain ⟨s₀, h0, hr⟩ := hrun.run
  obtain ⟨s₀', h0', hfits⟩ := start_noDisk (hup f hf).size (hup f hf).nonempty
  obtain rfl := Result.ok.inj (h0.symm.trans h0')
  obtain ⟨info, g, hs, hl⟩ := reachable_lively (hup f hf).size h0 hr
  have hforces := (hl.forces_completed g (hup f hf).size hs.receiver.valid hs.receiver.numBits hfits).keeps
    (I := fun t => Reachable Session.Step s t) (fun t e ready t' ht hstep => ht.snoc hstep) .refl
  have hlift := hforces.lift (u.put place l₁ l₂) (Event.session l₁.length)
    fun _ _ _ _ => @put_step _ sha256 folder u place _ _ l₁ l₂ _ _
  rw [hi.put_self hF hsplit] at hlift
  refine hlift.mono ?_
  rintro v ⟨t, ⟨ht, hreach⟩, rfl⟩
  exact ⟨hi.session hF hsplit hreach, t, ht, rfl⟩

theorem Inv.finish_sessions (hi : Inv home fs₀ folder F started rest u) (hF : F.WellFormed)
    (hup : ∀ f ∈ F.files, Uploadable f) {l₁ l₂ : List (Place × Session)} (hsplit : u.sessions = l₁ ++ l₂)
    (hcompleted : ∀ x ∈ l₁, x.2.Completed) :
    Forces (Play sha256 folder) (fun v => Inv home fs₀ folder F started rest v ∧
      ∀ x ∈ v.sessions, x.2.Completed) u := by
  induction l₂ generalizing u l₁ with
  | nil => exact .done ⟨hi, by simpa [hsplit] using hcompleted⟩
  | cons x l₂ ih =>
    apply (hi.finish_session hF hup hsplit).trans
    rintro v ⟨hv, t, ht, hsplit⟩
    have hmore : ∀ y ∈ l₁ ++ [(x.1, t)], y.2.Completed := by
      simpa [or_imp, forall_and, ht] using hcompleted
    exact ih hv (by simp [hsplit]) hmore

theorem Inv.finish (hlen : ∀ token, (sha256 token).length = 32) (hhome : home = clientHome sha256 fs₀.cwd)
    (hi : Inv home fs₀ folder F started rest u) (hF : F.WellFormed) (hup : ∀ f ∈ F.files, Uploadable f)
    (hway : ∀ q ∈ [fs₀.cwd, fs₀.cwd ++ [filesName], home], ∀ c, fs₀.node q ≠ some (.file c)) :
    Forces (Play sha256 folder) (fun v => Inv home fs₀ folder F F.files [] v ∧
      ∀ x ∈ v.sessions, x.2.Completed) u := by
  induction rest generalizing started u with
  | nil =>
    have hstarted : F.files = started := by rw [hi.files, List.append_nil]
    rw [hstarted]
    exact hi.finish_sessions hF hup (List.nil_append _).symm (by simp)
  | cons f rest ih =>
    apply (hi.finish_sessions hF hup (List.nil_append _).symm (by simp)).trans
    rintro v ⟨hv, hcompleted⟩
    have hfinished : ∀ x ∈ v.sessions, x.2.client.state = .finished := fun x hx => (hcompleted x hx).finished
    have hf : Uploadable f := hup f (by simp [hi.files])
    apply Forces.play .clientOnce fun _ => hv.clientOnce_total hlen hhome hF hf hway hfinished
    intro ready w hstep
    obtain ⟨f', rest', hrest, -, hw⟩ := hv.clientOnce hlen hhome hF (fun f hf => (hup f hf).toSendable) hstep
    obtain ⟨rfl, rfl⟩ := List.cons.inj hrest
    exact ih hw

end FolderUpload

/-- From each state of the upload, the client can be made to return, and then the folder of the client on
the server is the tree and nothing else. -/
theorem FolderUpload.Inv.completes {sha256 : Bytes → Bytes} {folder : PathBuf} {F : Forest}
    {fs₀ : FileSystem} {started rest : List (Place × Bytes)} {u : FolderUpload}
    (hlen : ∀ token, (sha256 token).length = 32)
    (hi : Inv (clientHome sha256 fs₀.cwd) fs₀ folder F started rest u) (hF : F.WellFormed)
    (hup : ∀ f ∈ F.files, Uploadable f) (hlast : ∀ f ∈ F.files, Storable f.2)
    (hway : ∀ q ∈ [fs₀.cwd, fs₀.cwd ++ [filesName], clientHome sha256 fs₀.cwd], ∀ c,
      fs₀.node q ≠ some (.file c)) :
    Forces (FolderUpload.Play sha256 folder) (fun v => v.Done ∧ ∀ n path,
      v.fs.node (clientHome sha256 fs₀.cwd ++ n :: path) = (stored F).lookup (n :: path)) u := by
  have hsend : ∀ f ∈ F.files, Sendable f := fun f hf => (hup f hf).toSendable
  apply (hi.finish hlen rfl hF hup hway).mono
  rintro v ⟨hv, hcompleted⟩
  have hdone : v.Done := ⟨by simp [hv.waiting], fun x hx => (hcompleted x hx).finished⟩
  exact ⟨hdone, fun n path => hv.tree hF hsend hlast hdone (Or.inr fun x hx => (hcompleted x hx).removed)⟩

end Completes

/-! ## Two files -/

section TwoFiles

/-- The files `a/b` and `b`. -/
def twoFiles : Forest :=
  .dir (OsString.ofString "a") (.file (OsString.ofString "b") [7] .nil)
    (.file (OsString.ofString "b") [8] .nil)

/-- The file is sent once, and nothing is lost. -/
def deliver (i : Nat) (b : UInt8) : List FolderUpload.Event :=
  .clientOnce :: [Event.senderStart, .senderStart, .senderComplete, .clientRecv [0, 1], .clientSent,
    .serverPoll false 0 (some [0, b]), .serverPoll false 1 none, .senderStart, .senderComplete,
    .clientRecv [1]].map (.session i)

end TwoFiles

end DasProtokoll.Csync
