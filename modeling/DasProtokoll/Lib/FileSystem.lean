import DasProtokoll.Lib.OsString
import Mathlib.Data.List.Basic
import Mathlib.Logic.Function.Basic

/-!
# Paths and files

A file system that maps resolved paths to nodes, with the operations that create
and remove them. A path is looked up name by name, and each name on the way has to
be a directory. An operation that the system refuses has no result.
-/

namespace DasProtokoll

/-- Where a resolved path ends. -/
abbrev Place := List OsString

/-! ## Paths -/

/-- What stands between the slashes, `.` and `..` as they are, and whether there is a slash at the end. -/
structure PathBuf where
  absolute : Bool
  components : List OsString
  trailing : Bool := false
  deriving Repr, DecidableEq

namespace PathBuf

/-- The byte `/`. -/
def slash : UInt8 := 0x2f

/-- The component `.`. -/
def dot : OsString := [0x2e]

/-- The component `..`. -/
def dots : OsString := [0x2e, 0x2e]

def ofOsString (s : OsString) : PathBuf where
  absolute := s.head? == some slash
  components := (s.splitOnP (· == slash)).filter (· ≠ [])
  trailing := s.getLast? == some slash

/-- An absolute path replaces the one before. An empty one leaves a slash at the end. -/
def joinPath (p q : PathBuf) : PathBuf :=
  if q.absolute then q
  else {
    p with
    components := p.components ++ q.components
    trailing := q.trailing || q.components.isEmpty }

def join (p : PathBuf) (name : OsString) : PathBuf := p.joinPath (ofOsString name)

/-- What counts when paths are compared: `.` only where a relative path starts with it. -/
def normal (p : PathBuf) : PathBuf where
  absolute := p.absolute
  components :=
    if p.absolute = false ∧ p.components.head? = some dot then
      dot :: p.components.tail.filter (· ≠ dot)
    else p.components.filter (· ≠ dot)

def parent (p : PathBuf) : Option PathBuf :=
  if p.normal.components = [] then none
  else some { p.normal with components := p.normal.components.dropLast }

/-- `.` stays and `..` goes up. -/
def push (at_ : Place) (component : OsString) : Place :=
  if component = dot then at_
  else if component = dots then at_.dropLast
  else at_ ++ [component]

/-- The places behind each of the components. -/
def steps (at_ : Place) : List OsString → List Place
  | [] => []
  | component :: components => push at_ component :: steps (push at_ component) components

/-- The place where the path starts. -/
def root (p : PathBuf) (cwd : Place) : Place := if p.absolute then [] else cwd

/-- The place that a path leads to from the working directory. -/
def resolve (p : PathBuf) (cwd : Place) : Place := p.components.foldl push (p.root cwd)

def way (p : PathBuf) (cwd : Place) : List Place := steps (p.root cwd) p.components

/-- The last component is a name, and there is no NUL. -/
def Named (p : PathBuf) : Prop :=
  (∃ name ∈ p.components.getLast?, name ≠ dot ∧ name ≠ dots) ∧ ∀ c ∈ p.components, 0 ∉ c

instance : DecidablePred Named := fun p => by
  unfold Named
  infer_instance

/-- The path ends in a name, and it does not lead through the directory of this name. -/
structure Clearable (p : PathBuf) (cwd : Place) : Prop where
  named : p.Named
  outside : ∀ place ∈ steps (p.root cwd) p.components.dropLast, ¬ p.resolve cwd <+: place

theorem resolve_eq (p : PathBuf) (cwd : Place) : p.resolve cwd = p.components.foldl push (p.root cwd) :=
  rfl

theorem normal_normal (p : PathBuf) : p.normal.normal = p.normal := by
  by_cases h : p.absolute = false ∧ p.components.head? = some dot
  · simp [normal, h]
  · have hhead : ¬ (p.absolute = false ∧ (p.components.filter (· ≠ dot)).head? = some dot) := by
      rintro ⟨-, hhead⟩
      simpa using List.of_mem_filter (List.mem_of_head? hhead)
    simp only [normal, if_neg h, if_neg hhead, List.filter_filter, Bool.and_self]

theorem steps_append (at_ : Place) (cs ds : List OsString) :
    steps at_ (cs ++ ds) = steps at_ cs ++ steps (cs.foldl push at_) ds := by
  induction cs generalizing at_ with
  | nil => rfl
  | cons c cs ih => simp [steps, ih]

theorem joinPath_relative (p : PathBuf) {q : PathBuf} (h : q.absolute = false) :
    p.joinPath q = {
      p with
      components := p.components ++ q.components
      trailing := q.trailing || q.components.isEmpty } := by
  simp [joinPath, h]

end PathBuf

/-- What a file can be called. -/
structure IsName (name : OsString) : Prop where
  ne_empty : name ≠ []
  no_slash : PathBuf.slash ∉ name
  ne_dot : name ≠ PathBuf.dot
  ne_dots : name ≠ PathBuf.dots
  no_nul : 0 ∉ name

theorem PathBuf.push_name (at_ : Place) {name : OsString} (h : IsName name) : push at_ name = at_ ++ [name] := by
  rw [push, if_neg h.ne_dot, if_neg h.ne_dots]

namespace PathBuf

variable {name : OsString} (h : IsName name)

include h

theorem ofOsString_name : ofOsString name = { absolute := false, components := [name] } := by
  have hhead : (name.head? == some slash) = false := by
    rw [beq_eq_false_iff_ne]
    intro hs
    exact h.no_slash (List.mem_of_head? hs)
  have hlast : (name.getLast? == some slash) = false := by
    rw [beq_eq_false_iff_ne]
    intro hs
    exact h.no_slash (List.mem_of_getLast? hs)
  have hsplit : name.splitOnP (· == slash) = [name] := by
    apply List.splitOnP_eq_singleton
    intro c hc
    rw [beq_eq_false_iff_ne]
    rintro rfl
    exact h.no_slash hc
  simp [ofOsString, hhead, hlast, hsplit, h.ne_empty]

theorem join_name (p : PathBuf) :
    p.join name = { p with components := p.components ++ [name], trailing := false } := by
  simp [join, joinPath, ofOsString_name h]

theorem resolve_join (p : PathBuf) (cwd : Place) : (p.join name).resolve cwd = p.resolve cwd ++ [name] := by
  simp [join_name h, resolve, push_name _ h, root]

theorem normal_join (p : PathBuf) :
    (p.join name).normal = { p.normal with components := p.normal.components ++ [name] } := by
  rw [join_name h]
  unfold normal
  cases hc : p.components with
  | nil => simp [h.ne_dot]
  | cons c cs =>
    by_cases hstart : p.absolute = false ∧ c = dot
    · simp [hstart, h.ne_dot]
    · simp only [List.cons_append, List.head?_cons, Option.some.injEq, if_neg hstart]
      rw [← List.cons_append, List.filter_append]
      simp [h.ne_dot]

theorem parent_join (p : PathBuf) : (p.join name).parent = some p.normal := by
  simp only [parent, normal_join h]
  simp [normal]

theorem named_join {p : PathBuf} (hp : ∀ c ∈ p.components, 0 ∉ c) : (p.join name).Named := by
  rw [join_name h]
  refine ⟨⟨name, by simp, h.ne_dot, h.ne_dots⟩, ?_⟩
  simpa [or_imp, forall_and, h.no_nul] using hp

end PathBuf

/-! ## The file system -/

inductive Node where
  | dir
  | file (content : List UInt8)
  deriving Repr, DecidableEq

structure FileSystem where
  cwd : Place
  node : Place → Option Node

inductive FsOp where
  | removeDirAll (path : PathBuf)
  | createDir (path : PathBuf)
  /-- An empty file, also where there was one before. -/
  | create (path : PathBuf)
  /-- To the open file. -/
  | writeAll (path : PathBuf) (data : List UInt8)
  deriving Repr, DecidableEq

namespace FileSystem

def set (fs : FileSystem) (place : Place) (n : Node) : FileSystem :=
  { fs with node := Function.update fs.node place (some n) }

def removeDirAll (fs : FileSystem) (place : Place) : Option FileSystem :=
  match fs.node place with
  | some .dir => some { fs with node := fun q => if place <+: q then none else fs.node q }
  | _ => none

def createDir (fs : FileSystem) (place : Place) : Option FileSystem :=
  match fs.node place, fs.node place.dropLast with
  | none, some .dir => some (fs.set place .dir)
  | _, _ => none

def create (fs : FileSystem) (place : Place) : Option FileSystem :=
  match fs.node place, fs.node place.dropLast with
  | some .dir, _ => none
  | _, some .dir => some (fs.set place (.file []))
  | _, _ => none

def writeAll (fs : FileSystem) (place : Place) (data : List UInt8) : Option FileSystem :=
  match fs.node place with
  | some (.file content) => some (fs.set place (.file (content ++ data)))
  | _ => none

/-- The system finds the directory in which the last name of the path is to be looked up. -/
structure Leads (fs : FileSystem) (path : PathBuf) : Prop where
  named : path.Named
  walks : ∀ place ∈ PathBuf.steps (path.root fs.cwd) path.components.dropLast, fs.node place = some .dir

/-- The system finds the directory that the path leads to. -/
structure Opens (fs : FileSystem) (path : PathBuf) : Prop where
  noNul : ∀ c ∈ path.components, 0 ∉ c
  walks : ∀ place ∈ path.way fs.cwd, fs.node place = some .dir

theorem leads_iff {fs : FileSystem} {path : PathBuf} : fs.Leads path ↔ path.Named ∧
    ∀ place ∈ PathBuf.steps (path.root fs.cwd) path.components.dropLast, fs.node place = some .dir :=
  ⟨fun h => ⟨h.named, h.walks⟩, fun h => ⟨h.1, h.2⟩⟩

instance Leads.decidable (fs : FileSystem) : DecidablePred fs.Leads := fun _ => decidable_of_iff _ leads_iff.symm

/-- A directory is in a directory. -/
def Rooted (fs : FileSystem) : Prop := ∀ q, fs.node q = some .dir → fs.node q.dropLast = some .dir

/-- A path is looked up name by name. A file is only created where no slash follows. -/
def exec (fs : FileSystem) : FsOp → Option FileSystem
  | .removeDirAll path => if fs.Leads path then fs.removeDirAll (path.resolve fs.cwd) else none
  | .createDir path => if fs.Leads path then fs.createDir (path.resolve fs.cwd) else none
  | .create path =>
    if fs.Leads path ∧ path.trailing = false then fs.create (path.resolve fs.cwd) else none
  | .writeAll path data => fs.writeAll (path.resolve fs.cwd) data

def execAll (fs : FileSystem) : List FsOp → Option FileSystem
  | [] => some fs
  | op :: ops => do
    let fs ← fs.exec op
    fs.execAll ops

theorem exec_removeDirAll_ok {fs fs' : FileSystem} {path : PathBuf}
    (h : fs.exec (.removeDirAll path) = some fs') :
    fs.Leads path ∧ fs.removeDirAll (path.resolve fs.cwd) = some fs' := by
  simpa only [exec, Option.ite_none_right_eq_some] using h

theorem exec_createDir_ok {fs fs' : FileSystem} {path : PathBuf} (h : fs.exec (.createDir path) = some fs') :
    fs.Leads path ∧ fs.createDir (path.resolve fs.cwd) = some fs' := by
  simpa only [exec, Option.ite_none_right_eq_some] using h

theorem exec_create_ok {fs fs' : FileSystem} {path : PathBuf} (h : fs.exec (.create path) = some fs') :
    (fs.Leads path ∧ path.trailing = false) ∧ fs.create (path.resolve fs.cwd) = some fs' := by
  simpa only [exec, Option.ite_none_right_eq_some] using h

theorem execAll_append (fs : FileSystem) (ops ops' : List FsOp) :
    fs.execAll (ops ++ ops') = (fs.execAll ops).bind fun fs => fs.execAll ops' := by
  induction ops generalizing fs with
  | nil => rfl
  | cons op ops ih =>
    simp only [List.cons_append, execAll]
    cases fs.exec op with
    | none => rfl
    | some fs' => exact ih fs'

@[simp] theorem set_cwd (fs : FileSystem) (place : List OsString) (n : Node) :
    (fs.set place n).cwd = fs.cwd := rfl

@[simp] theorem set_node_self (fs : FileSystem) (place : List OsString) (n : Node) :
    (fs.set place n).node place = some n := Function.update_self ..

theorem set_node_ne (fs : FileSystem) {place q : List OsString} (n : Node) (h : q ≠ place) :
    (fs.set place n).node q = fs.node q := Function.update_of_ne h ..

theorem set_set (fs : FileSystem) (place : List OsString) (m n : Node) :
    (fs.set place m).set place n = fs.set place n := by
  simp [set]

theorem createDir_ok {fs fs' : FileSystem} {place : List OsString} (h : fs.createDir place = some fs') :
    fs' = fs.set place .dir := by
  unfold createDir at h
  split at h
  · exact (Option.some.inj h).symm
  · cases h

theorem create_ok {fs fs' : FileSystem} {place : List OsString} (h : fs.create place = some fs') :
    fs' = fs.set place (.file []) := by
  unfold create at h
  split at h
  · cases h
  · exact (Option.some.inj h).symm
  · cases h

theorem writeAll_ok {fs fs' : FileSystem} {place : List OsString} {content data : List UInt8}
    (hfile : fs.node place = some (.file content)) (h : fs.writeAll place data = some fs') :
    fs' = fs.set place (.file (content ++ data)) := by
  rw [writeAll, hfile] at h
  exact (Option.some.inj h).symm

theorem createDir_new {fs : FileSystem} {place : List OsString} (hnone : fs.node place = none)
    (hparent : fs.node place.dropLast = some .dir) : fs.createDir place = some (fs.set place .dir) := by
  rw [createDir, hnone, hparent]

theorem create_new {fs : FileSystem} {place : List OsString} (hnone : fs.node place = none)
    (hparent : fs.node place.dropLast = some .dir) :
    fs.create place = some (fs.set place (.file [])) := by
  rw [create, hnone, hparent]

theorem writeAll_file {fs : FileSystem} {place : List OsString} {content : List UInt8}
    (hfile : fs.node place = some (.file content)) (data : List UInt8) :
    fs.writeAll place data = some (fs.set place (.file (content ++ data))) := by
  rw [writeAll, hfile]

/-! ## Directories that stay -/

/-- No directory is lost. -/
structure Keeps (fs fs' : FileSystem) : Prop where
  cwd : fs'.cwd = fs.cwd
  dirs : ∀ q, fs.node q = some .dir → fs'.node q = some .dir

section Opens

variable {fs fs' : FileSystem} {path : PathBuf} {name : OsString}

theorem Keeps.trans {fs'' : FileSystem} (h : fs.Keeps fs') (h' : fs'.Keeps fs'') : fs.Keeps fs'' :=
  ⟨h'.cwd.trans h.cwd, fun q hq => h'.dirs q (h.dirs q hq)⟩

theorem keeps_set {place : Place} {n : Node} (h : fs.node place ≠ some .dir) : fs.Keeps (fs.set place n) := by
  refine ⟨rfl, fun q hq => ?_⟩
  rw [set_node_ne, hq]
  rintro rfl
  exact h hq

theorem Opens.keeps (h : fs.Opens path) (hkeeps : fs.Keeps fs') : fs'.Opens path := by
  refine ⟨h.noNul, fun place hplace => ?_⟩
  rw [hkeeps.cwd] at hplace
  exact hkeeps.dirs place (h.walks place hplace)

theorem createDir_keeps {place : Place} (h : fs.createDir place = some fs') : fs.Keeps fs' := by
  obtain rfl := createDir_ok h
  apply keeps_set
  intro hdir
  rw [createDir, hdir] at h
  cases h

theorem Leads.keeps (h : fs.Leads path) (hkeeps : fs.Keeps fs') : fs'.Leads path := by
  refine ⟨h.named, fun place hplace => ?_⟩
  rw [hkeeps.cwd] at hplace
  exact hkeeps.dirs place (h.walks place hplace)

theorem Leads.opens (h : fs.Leads path) (hdir : fs.node (path.resolve fs.cwd) = some .dir) :
    fs.Opens path := by
  obtain ⟨⟨⟨name, hlast, -⟩, hnul⟩, hwalks⟩ := h
  refine ⟨hnul, ?_⟩
  have hsplit : path.components = path.components.dropLast ++ [name] :=
    (List.dropLast_append_getLast? name hlast).symm
  intro place hplace
  rw [PathBuf.way, hsplit, PathBuf.steps_append, List.mem_append] at hplace
  rcases hplace with hplace | hplace
  · exact hwalks place hplace
  · rw [PathBuf.resolve, hsplit, List.foldl_append] at hdir
    rw [PathBuf.steps, PathBuf.steps, List.mem_singleton] at hplace
    exact hplace ▸ hdir

theorem Opens.leads_join (h : fs.Opens path) (hname : IsName name) : fs.Leads (path.join name) := by
  refine ⟨PathBuf.named_join hname h.noNul, ?_⟩
  rw [PathBuf.join_name hname, List.dropLast_concat]
  exact h.walks

theorem Opens.join (h : fs.Opens path) (hname : IsName name)
    (hdir : fs.node (path.resolve fs.cwd ++ [name]) = some .dir) : fs.Opens (path.join name) :=
  (h.leads_join hname).opens (by rwa [PathBuf.resolve_join hname])

theorem Opens.exec_createDir (h : fs.Opens path) (hname : IsName name) :
    fs.exec (.createDir (path.join name)) = fs.createDir (path.resolve fs.cwd ++ [name]) := by
  rw [exec, if_pos (h.leads_join hname), PathBuf.resolve_join hname]

theorem Opens.exec_create (h : fs.Opens path) (hname : IsName name) :
    fs.exec (.create (path.join name)) = fs.create (path.resolve fs.cwd ++ [name]) := by
  rw [exec, if_pos ⟨h.leads_join hname, by rw [PathBuf.join_name hname]⟩, PathBuf.resolve_join hname]

end Opens

end FileSystem

/-! ## Directory trees -/

/-- The entries of a directory, one after the other. -/
inductive Forest where
  | nil
  | file (name : OsString) (content : List UInt8) (rest : Forest)
  | dir (name : OsString) (entries rest : Forest)
  deriving Repr, DecidableEq

namespace Forest

def names : Forest → List OsString
  | nil => []
  | file name _ rest => name :: rest.names
  | dir name _ rest => name :: rest.names

/-- The names in each directory are names, and no two are the same. -/
def WellFormed : Forest → Prop
  | nil => True
  | file name _ rest => IsName name ∧ name ∉ rest.names ∧ rest.WellFormed
  | dir name entries rest =>
    IsName name ∧ name ∉ rest.names ∧ entries.WellFormed ∧ rest.WellFormed

/-- What is at a path below the directory. -/
def lookup : Forest → List OsString → Option Node
  | _, [] => some .dir
  | nil, _ :: _ => none
  | file name content rest, n :: path =>
    if n = name then (if path = [] then some (.file content) else none)
    else rest.lookup (n :: path)
  | dir name entries rest, n :: path =>
    if n = name then entries.lookup path else rest.lookup (n :: path)

/-- The operations that put the entries into a new directory. -/
def ops (path : PathBuf) : Forest → List FsOp
  | nil => []
  | file name content rest =>
    .create (path.join name) :: .writeAll (path.join name) content :: rest.ops path
  | dir name entries rest =>
    .createDir (path.join name) :: (entries.ops (path.join name) ++ rest.ops path)

/-- No place of `F` below `place`. -/
def Fresh (F : Forest) (fs : FileSystem) (place : List OsString) : Prop :=
  ∀ n ∈ F.names, ∀ path, fs.node (place ++ n :: path) = none

/-- `fs'` is `fs` with the entries of `F` below `place`. -/
structure Written (F : Forest) (place : List OsString) (fs fs' : FileSystem) : Prop where
  cwd : fs'.cwd = fs.cwd
  inside : ∀ n ∈ F.names, ∀ path, fs'.node (place ++ n :: path) = F.lookup (n :: path)
  outside : ∀ q, (∀ n ∈ F.names, ∀ path, q ≠ place ++ n :: path) → fs'.node q = fs.node q

theorem lookup_of_notMem {F : Forest} {n : OsString} (h : n ∉ F.names) (path : List OsString) :
    F.lookup (n :: path) = none := by
  induction F with
  | nil => rfl
  | file name content rest ih =>
    rw [names, List.mem_cons, not_or] at h
    rw [lookup, if_neg h.1, ih h.2]
  | dir name entries rest _ ih =>
    rw [names, List.mem_cons, not_or] at h
    rw [lookup, if_neg h.1, ih h.2]

theorem place_ne {place path path' : List OsString} {n m : OsString} (h : n ≠ m) :
    place ++ n :: path ≠ place ++ m :: path' := by
  intro heq
  have := List.append_cancel_left heq
  exact h (List.cons.inj this).1

theorem written_cons {name : OsString} {here rest : Forest} {place : List OsString}
    {fs fs₁ fs' : FileSystem} {F : Forest} (hnames : F.names = name :: rest.names)
    (hnew : name ∉ rest.names)
    (hself : ∀ path, F.lookup (name :: path) = here.lookup (name :: path))
    (hrest : ∀ n, n ≠ name → ∀ path, F.lookup (n :: path) = rest.lookup (n :: path))
    (hhere : here.names = [name]) (h₁ : Written here place fs fs₁)
    (h₂ : Written rest place fs₁ fs') : Written F place fs fs' := by
  refine ⟨h₂.cwd.trans h₁.cwd, ?_, ?_⟩
  · intro n hn path
    rw [hnames, List.mem_cons] at hn
    by_cases hname : n = name
    · subst hname
      rw [hself, ← h₁.inside n (by simp [hhere]), h₂.outside]
      intro m hm path' heq
      exact place_ne (fun hnm : n = m => hnew (hnm ▸ hm)) heq
    · rw [hrest n hname, h₂.inside n (hn.resolve_left hname)]
  · intro q hq
    rw [hnames] at hq
    rw [h₂.outside q fun n hn => hq n (List.mem_cons_of_mem _ hn), h₁.outside q]
    intro n hn
    rw [hhere, List.mem_singleton] at hn
    exact hq n (by simp [hn])

theorem written_nil (place : List OsString) (fs : FileSystem) : Written nil place fs fs :=
  ⟨rfl, fun _ hn => by simp [names] at hn, fun _ _ => rfl⟩

theorem written_file {fs : FileSystem} {place : List OsString} {name : OsString} {content : List UInt8}
    (hfresh : ∀ path, fs.node (place ++ name :: path) = none) :
    Written (file name content nil) place fs (fs.set (place ++ [name]) (.file content)) := by
  refine ⟨rfl, ?_, ?_⟩
  · intro n hn path
    rw [names, names, List.mem_singleton] at hn
    subst hn
    cases path with
    | nil => simp [lookup]
    | cons m path =>
      rw [FileSystem.set_node_ne _ _ (by simp), hfresh]
      simp [lookup]
  · intro q hq
    exact FileSystem.set_node_ne _ _ (hq name (by simp [names]) [])

theorem written_dir {fs fs' : FileSystem} {place : List OsString} {name : OsString} {entries : Forest}
    (hfresh : ∀ path, fs.node (place ++ name :: path) = none)
    (h : Written entries (place ++ [name]) (fs.set (place ++ [name]) .dir) fs') :
    Written (dir name entries nil) place fs fs' := by
  refine ⟨h.cwd, ?_, ?_⟩
  · intro n hn path
    rw [names, names, List.mem_singleton] at hn
    subst hn
    rw [lookup, if_pos rfl]
    cases path with
    | nil =>
      rw [h.outside _ (by simp), FileSystem.set_node_self]
      cases entries <;> rfl
    | cons m path =>
      rw [show place ++ n :: m :: path = (place ++ [n]) ++ m :: path by simp]
      by_cases hm : m ∈ entries.names
      · exact h.inside m hm path
      · rw [lookup_of_notMem hm, h.outside, FileSystem.set_node_ne _ _ (by simp)]
        · rw [show (place ++ [n]) ++ m :: path = place ++ n :: m :: path by simp]
          exact hfresh _
        · intro k hk path' heq
          exact place_ne (fun hmk : m = k => hm (hmk ▸ hk)) heq
  · intro q hq
    have hne : q ≠ place ++ [name] := hq name (by simp [names]) []
    rw [h.outside q, FileSystem.set_node_ne _ _ hne]
    intro n _ path heq
    exact hq name (by simp [names]) (n :: path) (by rw [heq]; simp)

theorem Fresh.mono {F rest : Forest} {fs : FileSystem} {place : List OsString} (h : F.Fresh fs place)
    (hsub : rest.names ⊆ F.names) : rest.Fresh fs place :=
  fun n hn => h n (hsub hn)

theorem fresh_below {entries : Forest} {fs : FileSystem} {place : List OsString} {name : OsString}
    (h : ∀ path, fs.node (place ++ name :: path) = none) :
    entries.Fresh (fs.set (place ++ [name]) .dir) (place ++ [name]) := by
  intro n _ path
  rw [FileSystem.set_node_ne _ _ (by simp), List.append_assoc]
  exact h _

theorem Fresh.after {here rest : Forest} {name : OsString} {place : List OsString} {fs fs₁ : FileSystem}
    (hhere : here.names = [name]) (hnew : name ∉ rest.names) (hfresh : rest.Fresh fs place)
    (h : Written here place fs fs₁) : rest.Fresh fs₁ place := by
  intro n hn path
  rw [h.outside, hfresh n hn path]
  intro m hm path' heq
  rw [hhere, List.mem_singleton] at hm
  subst hm
  exact place_ne (fun hnm : n = m => hnew (hnm ▸ hn)) heq

theorem execAll_ops {F : Forest} (hF : F.WellFormed) {path : PathBuf} {fs fs' : FileSystem}
    (hfresh : F.Fresh fs (path.resolve fs.cwd)) (h : fs.execAll (F.ops path) = some fs') :
    Written F (path.resolve fs.cwd) fs fs' := by
  induction F generalizing path fs fs' with
  | nil =>
    obtain rfl := Option.some.inj h
    exact written_nil _ _
  | file name content rest ih =>
    obtain ⟨hname, hnew, hrest⟩ := hF
    simp only [ops, FileSystem.execAll, Option.bind_eq_bind, Option.bind_eq_some_iff] at h
    obtain ⟨fs₁, h₁, fs₂, h₂, h⟩ := h
    obtain ⟨-, h₁⟩ := FileSystem.exec_create_ok h₁
    rw [PathBuf.resolve_join hname] at h₁
    obtain rfl := FileSystem.create_ok h₁
    simp only [FileSystem.exec, PathBuf.resolve_join hname, FileSystem.set_cwd] at h₂
    obtain rfl := FileSystem.writeAll_ok (FileSystem.set_node_self ..) h₂
    rw [FileSystem.set_set, List.nil_append] at h
    have hhere := @written_file _ _ _ content (hfresh name (by simp [names]))
    have hfresh' : rest.Fresh fs (path.resolve fs.cwd) := hfresh.mono (by simp [names])
    have hrestw := @ih hrest path (fs.set (path.resolve fs.cwd ++ [name]) (.file content)) fs'
    refine written_cons rfl hnew (fun p => ?_) (fun n hn p => ?_) rfl hhere
      (hrestw (hfresh'.after rfl hnew hhere) h)
    · simp [lookup]
    · simp [lookup, hn]
  | dir name entries rest ihe ih =>
    obtain ⟨hname, hnew, hentries, hrest⟩ := hF
    simp only [ops, FileSystem.execAll, FileSystem.execAll_append, Option.bind_eq_bind,
      Option.bind_eq_some_iff] at h
    obtain ⟨fs₁, h₁, fs₂, h₂, h⟩ := h
    obtain ⟨-, h₁⟩ := FileSystem.exec_createDir_ok h₁
    rw [PathBuf.resolve_join hname] at h₁
    obtain rfl := FileSystem.createDir_ok h₁
    have hbelow := hfresh name (by simp [names])
    have hsub : Written entries (path.resolve fs.cwd ++ [name])
        (fs.set (path.resolve fs.cwd ++ [name]) .dir) fs₂ := by
      have := @ihe hentries (path.join name) (fs.set (path.resolve fs.cwd ++ [name]) .dir) fs₂
      rw [FileSystem.set_cwd, PathBuf.resolve_join hname] at this
      exact this (fresh_below hbelow) h₂
    have hhere := written_dir hbelow hsub
    have hfresh' : rest.Fresh fs (path.resolve fs.cwd) := hfresh.mono (by simp [names])
    have hrestw := @ih hrest path fs₂ fs'
    rw [hhere.cwd] at hrestw
    refine written_cons rfl hnew (fun p => ?_) (fun n hn p => ?_) rfl hhere
      (hrestw (hfresh'.after rfl hnew hhere) h)
    · simp [lookup]
    · simp [lookup, hn]

theorem Written.keeps {F : Forest} {place : Place} {fs fs' : FileSystem} (h : Written F place fs fs')
    (hfresh : F.Fresh fs place) : fs.Keeps fs' := by
  refine ⟨h.cwd, fun q hq => ?_⟩
  rw [h.outside, hq]
  rintro n hn path rfl
  rw [hfresh n hn path] at hq
  cases hq

theorem execAll_ops_total {F : Forest} (hF : F.WellFormed) {path : PathBuf} {fs : FileSystem}
    (hopens : fs.Opens path) (hdir : fs.node (path.resolve fs.cwd) = some .dir)
    (hfresh : F.Fresh fs (path.resolve fs.cwd)) : ∃ fs', fs.execAll (F.ops path) = some fs' := by
  induction F generalizing path fs with
  | nil => exact ⟨fs, rfl⟩
  | file name content rest ih =>
    obtain ⟨hname, hnew, hrest⟩ := hF
    have hnone := hfresh name (by simp [names])
    have hcreate : fs.exec (.create (path.join name)) = some _ :=
      (hopens.exec_create hname).trans (FileSystem.create_new (hnone []) (by simpa using hdir))
    have hwrite := FileSystem.writeAll_file
      (fs.set_node_self (path.resolve fs.cwd ++ [name]) (.file [])) content
    rw [FileSystem.set_set, List.nil_append] at hwrite
    have hexec : (fs.set (path.resolve fs.cwd ++ [name]) (.file [])).exec
        (.writeAll (path.join name) content) =
          some (fs.set (path.resolve fs.cwd ++ [name]) (.file content)) := by
      rw [FileSystem.exec, PathBuf.resolve_join hname, FileSystem.set_cwd, hwrite]
    have hhere := @written_file _ _ _ content hnone
    have hfresh' : rest.Fresh fs (path.resolve fs.cwd) := hfresh.mono (by simp [names])
    have hkeeps := hhere.keeps (hfresh.mono (by simp [names]))
    simp only [ops, FileSystem.execAll, hcreate, hexec, Option.bind_eq_bind, Option.bind_some]
    exact ih hrest (hopens.keeps hkeeps) (hkeeps.dirs _ hdir) (hfresh'.after rfl hnew hhere)
  | dir name entries rest ihe ih =>
    obtain ⟨hname, hnew, hentries, hrest⟩ := hF
    have hbelow := hfresh name (by simp [names])
    have hcreate : fs.exec (.createDir (path.join name)) = some _ :=
      (hopens.exec_createDir hname).trans (FileSystem.createDir_new (hbelow []) (by simpa using hdir))
    have hmade : fs.Keeps (fs.set (path.resolve fs.cwd ++ [name]) .dir) :=
      FileSystem.keeps_set (by simp [hbelow []])
    have hsub := @ihe hentries (path.join name) (fs.set (path.resolve fs.cwd ++ [name]) .dir)
      ((hopens.keeps hmade).join hname (FileSystem.set_node_self ..))
    have hwritten := @execAll_ops entries hentries (path.join name)
      (fs.set (path.resolve fs.cwd ++ [name]) .dir)
    rw [FileSystem.set_cwd, PathBuf.resolve_join hname] at hsub hwritten
    obtain ⟨fs₂, h₂⟩ := hsub (FileSystem.set_node_self ..) (fresh_below hbelow)
    have hhere := written_dir hbelow (hwritten (fresh_below hbelow) h₂)
    have hfresh' : rest.Fresh fs (path.resolve fs.cwd) := hfresh.mono (by simp [names])
    have hkeeps := hhere.keeps (hfresh.mono (by simp [names]))
    have hopens' := hopens.keeps hkeeps
    have hdir' := hkeeps.dirs _ hdir
    have hafter := hfresh'.after rfl hnew hhere
    rw [← hhere.cwd] at hdir' hafter
    simp only [ops, FileSystem.execAll, FileSystem.execAll_append, hcreate, h₂, Option.bind_eq_bind,
      Option.bind_some]
    exact ih hrest hopens' hdir' hafter

theorem execAll_clear {folder : PathBuf} {fs fs₁ : FileSystem}
    (h : fs.execAll [.removeDirAll folder, .createDir folder] = some fs₁) :
    fs₁.cwd = fs.cwd ∧ fs₁.Opens folder ∧
      ∀ path, fs₁.node (folder.resolve fs.cwd ++ path) = if path = [] then some .dir else none := by
  simp only [FileSystem.execAll, Option.bind_eq_bind, Option.bind_eq_some_iff] at h
  obtain ⟨fs₀, h₀, fs₂, h₂, h⟩ := h
  obtain rfl := Option.some.inj h
  obtain ⟨-, h₀⟩ := FileSystem.exec_removeDirAll_ok h₀
  obtain ⟨hleads, h₂⟩ := FileSystem.exec_createDir_ok h₂
  have hopens := (hleads.keeps (FileSystem.createDir_keeps h₂)).opens
  obtain rfl := FileSystem.createDir_ok h₂
  rw [FileSystem.set_cwd, FileSystem.set_node_self] at hopens
  unfold FileSystem.removeDirAll at h₀
  split at h₀
  · obtain rfl := Option.some.inj h₀
    refine ⟨rfl, hopens rfl, ?_⟩
    intro path
    cases path with
    | nil => simp
    | cons n path =>
      rw [FileSystem.set_node_ne _ _ (by simp)]
      simp
  · cases h₀

theorem clear_iff {fs : FileSystem} {folder : PathBuf} (hrooted : fs.Rooted) (hopens : fs.Opens folder)
    (hdir : fs.node (folder.resolve fs.cwd) = some .dir) :
    (∃ fs₁, fs.execAll [.removeDirAll folder, .createDir folder] = some fs₁) ↔ folder.Clearable fs.cwd := by
  have hremove : fs.removeDirAll (folder.resolve fs.cwd) = some {
      fs with node := fun q => if folder.resolve fs.cwd <+: q then none else fs.node q } := by
    rw [FileSystem.removeDirAll, hdir]
  constructor
  · rintro ⟨fs₁, h⟩
    simp only [FileSystem.execAll, Option.bind_eq_bind, Option.bind_eq_some_iff] at h
    obtain ⟨fs₀, h₀, fs₂, h₂, -⟩ := h
    obtain ⟨-, h₀⟩ := FileSystem.exec_removeDirAll_ok h₀
    rw [hremove, Option.some.injEq] at h₀
    subst h₀
    obtain ⟨hleads, -⟩ := FileSystem.exec_createDir_ok h₂
    refine ⟨hleads.named, fun place hplace hbelow => ?_⟩
    have hnode := hleads.walks place hplace
    simp [hbelow] at hnode
  · rintro ⟨hnamed, houtside⟩
    have hwalks : ∀ place ∈ PathBuf.steps (folder.root fs.cwd) folder.components.dropLast,
        fs.node place = some .dir := by
      intro place hplace
      apply hopens.walks
      obtain ⟨⟨name, hlast, -⟩, -⟩ := hnamed
      rw [PathBuf.way, ← List.dropLast_append_getLast? name hlast, PathBuf.steps_append]
      exact List.mem_append_left _ hplace
    have hparent : ¬ folder.resolve fs.cwd <+: (folder.resolve fs.cwd).dropLast := by
      obtain ⟨⟨name, hlast, hdot, hdots⟩, -⟩ := hnamed
      have hplace : folder.resolve fs.cwd = folder.components.dropLast.foldl PathBuf.push
          (folder.root fs.cwd) ++ [name] := by
        conv_lhs => rw [PathBuf.resolve, ← List.dropLast_append_getLast? name hlast]
        rw [List.foldl_append, List.foldl_cons, List.foldl_nil, PathBuf.push, if_neg hdot, if_neg hdots]
      intro hbelow
      have hle := hbelow.length_le
      rw [hplace, List.dropLast_concat, List.length_append, List.length_singleton] at hle
      omega
    have hleads : fs.Leads folder := ⟨hnamed, hwalks⟩
    simp only [FileSystem.execAll, FileSystem.exec, if_pos hleads, hremove, Option.bind_eq_bind,
      Option.bind_some]
    rw [if_pos ⟨hnamed, fun place hplace => by simpa [houtside place hplace] using hwalks place hplace⟩]
    have hnone : (if folder.resolve fs.cwd <+: folder.resolve fs.cwd then none
        else fs.node (folder.resolve fs.cwd)) = none := by simp
    have hup : (if folder.resolve fs.cwd <+: (folder.resolve fs.cwd).dropLast then none
        else fs.node (folder.resolve fs.cwd).dropLast) = some .dir := by
      simpa [hparent] using hrooted _ hdir
    simp only [FileSystem.createDir, hnone, hup, Option.bind_some]
    exact ⟨_, rfl⟩

theorem execAll_replace_eq (fs : FileSystem) (folder : PathBuf) (F : Forest) :
    fs.execAll (.removeDirAll folder :: .createDir folder :: F.ops folder) =
      (fs.execAll [.removeDirAll folder, .createDir folder]).bind fun fs => fs.execAll (F.ops folder) :=
  FileSystem.execAll_append fs [.removeDirAll folder, .createDir folder] (F.ops folder)

theorem fresh_clear {F : Forest} {folder : PathBuf} {fs fs₁ : FileSystem}
    (h : fs.execAll [.removeDirAll folder, .createDir folder] = some fs₁) :
    F.Fresh fs₁ (folder.resolve fs₁.cwd) := by
  obtain ⟨hcwd, -, hnode⟩ := execAll_clear h
  intro n _ path
  rw [hcwd, hnode, if_neg (by simp)]

theorem execAll_replace {F : Forest} (hF : F.WellFormed) {folder : PathBuf} {fs fs' : FileSystem}
    (h : fs.execAll (.removeDirAll folder :: .createDir folder :: F.ops folder) = some fs')
    (path : List OsString) : fs'.node (folder.resolve fs.cwd ++ path) = F.lookup path := by
  rw [execAll_replace_eq] at h
  obtain ⟨fs₁, hclear, hops⟩ := Option.bind_eq_some_iff.mp h
  have hw := execAll_ops hF (fresh_clear hclear) hops
  obtain ⟨hcwd, -, hnode⟩ := execAll_clear hclear
  rw [hcwd] at hw
  cases path with
  | nil =>
    rw [hw.outside _ (by simp), hnode, if_pos rfl]
    cases F <;> rfl
  | cons n path =>
    by_cases hn : n ∈ F.names
    · exact hw.inside n hn path
    · rw [lookup_of_notMem hn, hw.outside, hnode, if_neg (by simp)]
      intro m hm path' heq
      exact place_ne (fun hnm : n = m => hn (hnm ▸ hm)) heq

theorem execAll_replace_total {F : Forest} (hF : F.WellFormed) {folder : PathBuf}
    {fs fs₁ : FileSystem} (hclear : fs.execAll [.removeDirAll folder, .createDir folder] = some fs₁) :
    ∃ fs', fs.execAll (.removeDirAll folder :: .createDir folder :: F.ops folder) = some fs' := by
  rw [execAll_replace_eq, hclear, Option.bind_some]
  obtain ⟨hcwd, hopens, hnode⟩ := execAll_clear hclear
  apply execAll_ops_total hF hopens
  · have hself := hnode []
    rwa [List.append_nil, if_pos rfl, ← hcwd] at hself
  · exact fresh_clear hclear

end Forest

end DasProtokoll
