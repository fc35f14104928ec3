import DasProtokoll.Csync.Storage

/-!
# The clients of a server

The folder of a client is named by the digest of its token. A request stays in it
as long as its path does, and two uploads stay apart as long as neither is stored
below a file of the other.
-/

namespace DasProtokoll.Csync

open DasProtokoll

def filesName : OsString := OsString.ofString "files"

theorem isName_files : IsName filesName := ⟨by decide, by decide, by decide, by decide, by decide⟩

namespace Login

def req (login : Login) : UploadRequest :=
  match login.command with
  | .UploadRequest req => req

/-- The request as its path alone tells it, with `.` and `..` resolved. -/
def normalised (login : Login) : Place := (requestPath login.req.path).resolve []

variable (sha256 : Bytes → Bytes)

def folder (login : Login) : PathBuf :=
  (PathBuf.ofOsString (OsString.ofString "./files/")).join (writeHex (sha256 login.clientToken))

/-- The session of a login, with the uploads of all clients around it. -/
def openUpload (login : Login) (fs : FileSystem) : Result Upload := do
  let u ← storeUpload fs (login.folder sha256) login.req
  return { u with receiver := { u.receiver with tx := u.receiver.tx ++ [.UploadStatus] } }

def home (login : Login) (cwd : Place) : Place := (login.folder sha256).resolve cwd

def path (login : Login) : PathBuf := (login.folder sha256).joinPath (requestPath login.req.path)

def place (login : Login) (cwd : Place) : Place := (login.path sha256).resolve cwd

/-- The directories that lead to the files of the upload. -/
def directories (login : Login) (cwd : Place) : List Place := (login.path sha256).way cwd

/-- All that the request makes or writes lies in the folder of the client. -/
def Confined (login : Login) (cwd : Place) (u : Upload) : Prop :=
  ∀ place ∈ u.made ++ u.written, login.home sha256 cwd <+: place

/-- Two uploads have no file in common, and no file of one leads to a file of the other. -/
def Separate (l₁ l₂ : Login) (cwd : Place) (u₁ u₂ : Upload) : Prop :=
  (∀ f ∈ u₁.written, f ∉ u₂.written) ∧ (∀ f ∈ u₁.written, f ∉ l₂.directories sha256 cwd) ∧
    ∀ f ∈ u₂.written, f ∉ l₁.directories sha256 cwd

/-- The path ends in the folder of the client, and what it passes outside is there already. -/
def Stays (login : Login) (fs : FileSystem) : Prop :=
  login.home sha256 fs.cwd <+: login.place sha256 fs.cwd ∧
    ∀ p ∈ login.directories sha256 fs.cwd, login.home sha256 fs.cwd <+: p ∨ fs.node p = some .dir

/-- The path of `l₂` passes no `bitmap` and no `file` in the directory of `l₁`. -/
def Clear (l₁ l₂ : Login) (cwd : Place) : Prop :=
  ∀ name ∈ [bitmapName, fileName], l₁.place sha256 cwd ++ [name] ∉ l₂.directories sha256 cwd

instance (login : Login) (fs : FileSystem) : Decidable (login.Stays sha256 fs) := by
  unfold Stays
  infer_instance

instance (l₁ l₂ : Login) (cwd : Place) : Decidable (Clear sha256 l₁ l₂ cwd) := by
  unfold Clear
  infer_instance

/-! ## The folder of a client -/

theorem hexDigit_injective {m n : Nat} (hm : m < 16) (hn : n < 16) (h : hexDigit m = hexDigit n) :
    m = n := by
  interval_cases m <;> interval_cases n <;> first | rfl | (exact absurd h (by decide))

theorem writeHex_injective : Function.Injective writeHex := by
  intro xs ys h
  induction xs generalizing ys with
  | nil =>
    cases ys with
    | nil => rfl
    | cons y ys => simp [writeHex] at h
  | cons x xs ih =>
    cases ys with
    | nil => simp [writeHex] at h
    | cons y ys =>
      simp only [writeHex, List.flatMap_cons, List.cons_append, List.nil_append, List.cons.injEq] at h
      obtain ⟨hhigh, hlow, hrest⟩ := h
      have hx := x.toNat_lt
      have hy := y.toNat_lt
      have h1 := hexDigit_injective (by omega) (by omega) hhigh
      have h2 := hexDigit_injective (by omega) (by omega) hlow
      rw [ih hrest, UInt8.toNat_inj.mp (by omega : x.toNat = y.toNat)]

theorem hexDigit_plain (n : Nat) (h : n < 16) : hexDigit n ≠ PathBuf.slash ∧ hexDigit n ≠ 0 := by
  interval_cases n <;> decide

theorem plain_of_mem_writeHex {bs : Bytes} {b : UInt8} (h : b ∈ writeHex bs) : b ≠ PathBuf.slash ∧ b ≠ 0 := by
  simp only [writeHex, List.mem_flatMap, List.mem_cons, List.not_mem_nil, or_false] at h
  obtain ⟨b, -, hb⟩ := h
  have := b.toNat_lt
  rcases hb with rfl | rfl
  · exact hexDigit_plain _ (by omega)
  · exact hexDigit_plain _ (by omega)

@[simp] theorem length_writeHex (bs : Bytes) : (writeHex bs).length = 2 * bs.length := by
  simp [writeHex, Nat.mul_comm]

theorem isName_writeHex {bs : Bytes} (h : bs.length = 32) : IsName (writeHex bs) := by
  have hlen : (writeHex bs).length = 64 := by rw [length_writeHex, h]
  have hne : ∀ name : OsString, name.length < 64 → writeHex bs ≠ name := by
    rintro name hshort rfl
    omega
  refine ⟨hne _ (by decide), ?_, hne _ (by decide), hne _ (by decide), ?_⟩
  · exact fun hslash => (plain_of_mem_writeHex hslash).1 rfl
  · exact fun hnul => (plain_of_mem_writeHex hnul).2 rfl

section Folder

variable {sha256} (hlen : ∀ token, (sha256 token).length = 32)

include hlen

theorem folder_eq (login : Login) : login.folder sha256 =
    { absolute := false, components := [PathBuf.dot, filesName, writeHex (sha256 login.clientToken)] } := by
  rw [folder, PathBuf.join_name (isName_writeHex (hlen _))]
  rfl

theorem path_eq (login : Login) : login.path sha256 =
    { absolute := false
      components := [PathBuf.dot, filesName, writeHex (sha256 login.clientToken)] ++
        (requestPath login.req.path).components
      trailing :=
        (requestPath login.req.path).trailing || (requestPath login.req.path).components.isEmpty } := by
  rw [path, PathBuf.joinPath_relative _ (requestPath_relative _), folder_eq hlen]

theorem home_eq (login : Login) (cwd : Place) :
    login.home sha256 cwd = cwd ++ [filesName] ++ [writeHex (sha256 login.clientToken)] := by
  have hname := isName_writeHex (hlen login.clientToken)
  rw [home, folder_eq hlen, PathBuf.resolve_eq]
  simp only [PathBuf.root, List.foldl_cons, List.foldl_nil, PathBuf.push_dot,
    PathBuf.push_name _ isName_files, PathBuf.push_name _ hname]
  rfl

theorem place_eq (login : Login) (cwd : Place) : login.place sha256 cwd =
    (requestPath login.req.path).components.foldl PathBuf.push (login.home sha256 cwd) := by
  rw [place, path_eq hlen, home, folder_eq hlen, PathBuf.resolve, PathBuf.resolve, List.foldl_append]
  rfl

theorem directories_eq (login : Login) (cwd : Place) : login.directories sha256 cwd =
    [cwd, cwd ++ [filesName], login.home sha256 cwd] ++
      PathBuf.steps (login.home sha256 cwd) (requestPath login.req.path).components := by
  have hname := isName_writeHex (hlen login.clientToken)
  rw [home_eq hlen, directories, path_eq hlen, PathBuf.way, PathBuf.steps_append]
  simp only [PathBuf.root, PathBuf.steps, List.foldl_cons, List.foldl_nil, PathBuf.push_dot,
    PathBuf.push_name _ isName_files, PathBuf.push_name _ hname]
  rfl

theorem home_prefix_file (login : Login) (cwd at_ : Place) {name : OsString}
    (hname : name ∈ [bitmapName, fileName]) :
    login.home sha256 cwd <+: at_ ++ [name] ↔ login.home sha256 cwd <+: at_ := by
  have hne : login.home sha256 cwd ≠ at_ ++ [name] := by
    intro h
    rw [home_eq hlen] at h
    have hlast := congrArg List.length (List.append_inj_right' h rfl |> List.singleton_inj.mp)
    rw [length_writeHex, hlen] at hlast
    simp only [List.mem_cons, List.not_mem_nil, or_false] at hname
    rcases hname with rfl | rfl <;> exact absurd hlast (by decide)
  rw [List.prefix_concat_iff, or_iff_right hne]

theorem home_unique {l₁ l₂ : Login} {cwd at_ : Place} (h₁ : l₁.home sha256 cwd <+: at_)
    (h₂ : l₂.home sha256 cwd <+: at_) : sha256 l₁.clientToken = sha256 l₂.clientToken := by
  have heq : l₁.home sha256 cwd = l₂.home sha256 cwd := by
    apply (List.prefix_of_prefix_length_le h₁ h₂ _).eq_of_length
    · simp [home_eq hlen]
    · simp [home_eq hlen]
  rw [home_eq hlen, home_eq hlen] at heq
  exact writeHex_injective (List.singleton_inj.mp (List.append_cancel_left heq))

end Folder

/-! ## One request -/

theorem openUpload_ok {sha256 : Bytes → Bytes} {login : Login} {fs : FileSystem} {u : Upload}
    (h : login.openUpload sha256 fs = .ok u) :
    (∀ p, p ∈ u.made ↔ p ∈ login.directories sha256 fs.cwd ∧ fs.node p ≠ some .dir) ∧
      u.written = [login.place sha256 fs.cwd ++ [bitmapName], login.place sha256 fs.cwd ++ [fileName]] := by
  obtain ⟨u', hu, h⟩ := Result.bind_eq_ok.mp h
  rw [Result.pure_def, Result.ok.injEq] at h
  subst h
  obtain ⟨hmade, hwritten, -⟩ := storeUpload_ok hu
  exact ⟨hmade, hwritten⟩

variable {sha256} (hlen : ∀ token, (sha256 token).length = 32)

include hlen

theorem confined_iff {login : Login} {fs : FileSystem} {u : Upload}
    (h : login.openUpload sha256 fs = .ok u) :
    login.Confined sha256 fs.cwd u ↔ login.Stays sha256 fs := by
  obtain ⟨hmade, hwritten⟩ := openUpload_ok h
  unfold Confined Stays
  rw [List.forall_mem_append, hwritten, and_comm]
  apply and_congr
  · simp only [List.forall_mem_cons, List.not_mem_nil, false_imp_iff, implies_true, and_true]
    rw [home_prefix_file hlen _ _ _ (by simp), home_prefix_file hlen _ _ _ (by simp), and_self]
  · apply forall_congr'
    intro p
    rw [hmade, and_imp]
    apply imp_congr_right
    intro _
    rw [or_comm, or_iff_not_imp_left]

omit hlen in
theorem separate_iff {l₁ l₂ : Login} {fs₁ fs₂ : FileSystem} {u₁ u₂ : Upload} (hcwd : fs₂.cwd = fs₁.cwd)
    (h₁ : l₁.openUpload sha256 fs₁ = .ok u₁) (h₂ : l₂.openUpload sha256 fs₂ = .ok u₂) :
    Separate sha256 l₁ l₂ fs₁.cwd u₁ u₂ ↔ l₁.place sha256 fs₁.cwd ≠ l₂.place sha256 fs₁.cwd ∧
      Clear sha256 l₁ l₂ fs₁.cwd ∧ Clear sha256 l₂ l₁ fs₁.cwd := by
  have hname : bitmapName ≠ fileName := by decide
  unfold Separate Clear
  rw [(openUpload_ok h₁).2, (openUpload_ok h₂).2, hcwd]
  simp [hname, hname.symm]

/-- The path of the request never goes up out of the folder. -/
def Descends (login : Login) : Prop := PathBuf.StaysBelow [] (requestPath login.req.path).components

theorem place_of_descends {login : Login} (h : login.Descends) (cwd : Place) :
    login.place sha256 cwd = login.home sha256 cwd ++ login.normalised := by
  have hbelow := @PathBuf.foldl_push_below (login.home sha256 cwd) [] _ h
  rw [List.append_nil] at hbelow
  rw [place_eq hlen, hbelow, normalised, PathBuf.resolve]
  simp [PathBuf.root]

theorem mem_directories_of_descends {login : Login} (h : login.Descends) {cwd p : Place}
    (hp : p ∈ login.directories sha256 cwd) :
    p = cwd ∨ p = cwd ++ [filesName] ∨ login.home sha256 cwd <+: p := by
  have hbelow := @PathBuf.steps_below (login.home sha256 cwd) [] _ h
  rw [List.append_nil] at hbelow
  rw [directories_eq hlen, hbelow, List.mem_append, List.mem_map] at hp
  rcases hp with hp | ⟨q, -, rfl⟩
  · simp only [List.mem_cons, List.not_mem_nil, or_false] at hp
    rcases hp with rfl | rfl | rfl
    · exact Or.inl rfl
    · exact Or.inr (Or.inl rfl)
    · exact Or.inr (Or.inr List.prefix_rfl)
  · exact Or.inr (Or.inr (List.prefix_append ..))

theorem stays_of_descends {login : Login} (h : login.Descends) {fs : FileSystem}
    (hcwd : fs.node fs.cwd = some .dir) (hfiles : fs.node (fs.cwd ++ [filesName]) = some .dir) :
    login.Stays sha256 fs := by
  constructor
  · rw [place_of_descends hlen h]
    exact List.prefix_append ..
  · intro p hp
    rcases mem_directories_of_descends hlen h hp with rfl | rfl | hin
    · exact Or.inr hcwd
    · exact Or.inr hfiles
    · exact Or.inl hin

theorem clear_of_descends {l₁ l₂ : Login} (h₁ : l₁.Descends) (h₂ : l₂.Descends)
    (hdigest : sha256 l₁.clientToken ≠ sha256 l₂.clientToken) (cwd : Place) :
    Clear sha256 l₁ l₂ cwd := by
  intro name _ hp
  rw [place_of_descends hlen h₁, List.append_assoc] at hp
  have hin : l₁.home sha256 cwd <+: l₁.home sha256 cwd ++ (l₁.normalised ++ [name]) :=
    List.prefix_append ..
  rcases mem_directories_of_descends hlen h₂ hp with hcwd | hfiles | hin₂
  · have := congrArg List.length hcwd
    rw [home_eq hlen] at this
    simp at this
  · have := congrArg List.length hfiles
    rw [home_eq hlen] at this
    simp at this
  · exact hdigest (home_unique hlen hin hin₂)

/-- Two clients whose paths never go up are isolated, once the directory of all clients is there. -/
theorem clients_isolated {l₁ l₂ : Login} (h₁ : l₁.Descends) (h₂ : l₂.Descends)
    (hdigest : sha256 l₁.clientToken ≠ sha256 l₂.clientToken) {fs : FileSystem}
    (hcwd : fs.node fs.cwd = some .dir) (hfiles : fs.node (fs.cwd ++ [filesName]) = some .dir)
    {u₁ u₂ : Upload} (hu₁ : l₁.openUpload sha256 fs = .ok u₁) (hu₂ : l₂.openUpload sha256 fs = .ok u₂) :
    l₁.Confined sha256 fs.cwd u₁ ∧ l₂.Confined sha256 fs.cwd u₂ ∧
      Separate sha256 l₁ l₂ fs.cwd u₁ u₂ := by
  have hstays₁ := stays_of_descends hlen h₁ hcwd hfiles
  have hstays₂ := stays_of_descends hlen h₂ hcwd hfiles
  refine ⟨(confined_iff hlen hu₁).mpr hstays₁, (confined_iff hlen hu₂).mpr hstays₂, ?_⟩
  rw [separate_iff rfl hu₁ hu₂]
  refine ⟨?_, clear_of_descends hlen h₁ h₂ hdigest _, clear_of_descends hlen h₂ h₁ hdigest.symm _⟩
  intro heq
  exact hdigest (home_unique hlen hstays₁.1 (heq ▸ hstays₂.1))

end Login

/-! ## A server with two clients -/

/-- The digests of the tokens `01` and `02`. -/
def digest (token : Bytes) : Bytes :=
  if token = [1] then
    [75, 245, 18, 47, 52, 69, 84, 197, 59, 222, 46, 187, 140, 210, 183, 227,
      209, 96, 10, 214, 49, 195, 133, 165, 215, 204, 226, 60, 119, 133, 69, 154]
  else
    [219, 193, 180, 201, 0, 255, 228, 141, 87, 91, 93, 165, 198, 56, 4, 1,
      37, 246, 93, 176, 254, 62, 36, 73, 75, 118, 234, 152, 100, 87, 217, 134]

/-- A working directory with an empty `files`. -/
def freshServer : FileSystem where
  cwd := [OsString.ofString "srv"]
  node p :=
    if p = [] ∨ p = [OsString.ofString "srv"] ∨ p = [OsString.ofString "srv", filesName] then some .dir
    else none

def accepts (login : Login) : Bool :=
  match login.openUpload digest freshServer with
  | .ok _ => true
  | _ => false

end DasProtokoll.Csync
