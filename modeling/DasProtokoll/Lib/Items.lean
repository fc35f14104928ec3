import DasProtokoll.Lib.Joins
import Mathlib.Data.List.Induction

/-!
# Items of a folder

Items are made in a folder, one after the other, by paths that are joined to it. What
is executed ends where the system refuses an operation.
-/

namespace DasProtokoll

inductive Kind where
  | dir
  | file
  deriving Repr, DecidableEq

def Node.kind : Node → Kind
  | .dir => .dir
  | .file _ => .file

def FsOp.path : FsOp → PathBuf
  | .removeDirAll path => path
  | .createDir path => path
  | .create path => path
  | .writeAll path _ => path

/-- The path of a file or directory that is made. -/
def FsOp.made : FsOp → Option PathBuf
  | .createDir path => some path
  | .create path => some path
  | _ => none

namespace FileSystem

def kind (fs : FileSystem) (place : Place) : Option Kind := (fs.node place).map Node.kind

/-- The operations up to the first that the system refuses. -/
def executed (fs : FileSystem) : List FsOp → List FsOp
  | [] => []
  | op :: ops =>
    match fs.exec op with
    | some fs' => op :: fs'.executed ops
    | none => []

/-- The places of the files and directories that are made. -/
def made (fs : FileSystem) (ops : List FsOp) : List Place :=
  ((fs.executed ops).filterMap FsOp.made).map fun path => path.resolve fs.cwd

/-- All that is done is done in the folder, and nothing is made where something was made before. -/
structure Confined (fs : FileSystem) (folder : PathBuf) (ops : List FsOp) : Prop where
  inside : ∀ op ∈ fs.executed ops, folder.resolve fs.cwd <+: op.path.resolve fs.cwd
  apart : (fs.made ops).Nodup

end FileSystem

/-! ## Items -/

/-- A file or directory to make. The path is joined to the folder. -/
structure Item where
  path : PathBuf
  kind : Kind
  deriving Repr, DecidableEq

namespace Item

def make (e : Item) (folder : PathBuf) : FsOp :=
  match e.kind with
  | .dir => .createDir (folder.joinPath e.path)
  | .file => .create (folder.joinPath e.path)

def node (e : Item) : Node :=
  match e.kind with
  | .dir => .dir
  | .file => .file []

end Item

/-- The operations make the items in this order, and write to each file after it is made. -/
inductive Makes (folder : PathBuf) : List Item → List FsOp → Prop
  | nil : Makes folder [] []
  | cons {e : Item} {data : List (List UInt8)} {items : List Item} {ops : List FsOp}
    (hdata : e.kind = .dir → data = []) (h : Makes folder items ops) :
    Makes folder (e :: items) (e.make folder :: (data.map (.writeAll (folder.joinPath e.path)) ++ ops))

theorem makes_file {folder path : PathBuf} (data : List (List UInt8)) :
    Makes folder [{ path, kind := .file }]
      (.create (folder.joinPath path) :: data.map (.writeAll (folder.joinPath path))) := by
  have h : ({ path, kind := .file } : Item).kind = .dir → data = [] := by simp
  simpa [Item.make] using Makes.cons h (@Makes.nil folder)

theorem Makes.dir {folder path : PathBuf} {items : List Item} {ops : List FsOp} (h : Makes folder items ops) :
    Makes folder ({ path, kind := .dir } :: items) (.createDir (folder.joinPath path) :: ops) :=
  @Makes.cons folder { path, kind := .dir } [] items ops (fun _ => rfl) h

theorem Makes.append {folder : PathBuf} {items items' : List Item} {ops ops' : List FsOp}
    (h : Makes folder items ops) (h' : Makes folder items' ops') :
    Makes folder (items ++ items') (ops ++ ops') := by
  induction h with
  | nil => exact h'
  | cons hdata _ ih =>
    rw [List.cons_append, List.cons_append, List.append_assoc]
    exact .cons hdata ih

/-! ## What is executed -/

namespace FileSystem

variable {fs fs' : FileSystem} {folder : PathBuf} {e : Item} {place q : Place}

theorem kind_eq_dir : fs.kind q = some .dir ↔ fs.node q = some .dir := by
  unfold kind
  cases fs.node q with
  | none => simp
  | some n => cases n <;> simp [Node.kind]

theorem kind_eq_file : fs.kind q = some .file ↔ ∃ content, fs.node q = some (.file content) := by
  unfold kind
  cases fs.node q with
  | none => simp
  | some n => cases n <;> simp [Node.kind]

theorem kind_eq_none : fs.kind q = none ↔ fs.node q = none := by
  simp [kind]

theorem kind_set (n : Node) : (fs.set place n).kind = Function.update fs.kind place (some n.kind) := by
  funext q
  by_cases h : q = place
  · subst h
    simp [kind]
  · rw [kind, set_node_ne _ _ h, Function.update_of_ne h]
    rfl

theorem Rooted.above (h : fs.Rooted) (hdir : fs.node q = some .dir) (hpre : place <+: q) :
    fs.node place = some .dir := by
  obtain ⟨names, rfl⟩ := hpre
  induction names using List.reverseRecOn with
  | nil => simpa using hdir
  | append_singleton names name ih =>
    apply ih
    have hup := h _ hdir
    rwa [← List.append_assoc, List.dropLast_concat] at hup

theorem Rooted.set (h : fs.Rooted) {n : Node} (hfree : fs.node place ≠ some .dir)
    (hparent : fs.node place.dropLast = some .dir) : (fs.set place n).Rooted := by
  intro q hq
  by_cases hself : q = place
  · subst hself
    by_cases hup : q.dropLast = q
    · rwa [hup]
    · rwa [set_node_ne _ _ hup]
  · rw [set_node_ne _ _ hself] at hq
    have hup := h q hq
    rw [set_node_ne, hup]
    intro heq
    exact hfree (heq ▸ hup)

/-- What it takes to make an item. -/
structure Makeable (fs : FileSystem) (folder : PathBuf) (e : Item) : Prop where
  leads : fs.Leads (folder.joinPath e.path)
  bare : e.kind = .file → (folder.joinPath e.path).trailing = false
  parent : fs.kind ((folder.joinPath e.path).resolve fs.cwd).dropLast = some .dir
  free : fs.kind ((folder.joinPath e.path).resolve fs.cwd) = none ∨
    e.kind = .file ∧ fs.kind ((folder.joinPath e.path).resolve fs.cwd) = some .file

theorem createDir_iff : fs.createDir place = some fs' ↔
    fs.node place = none ∧ fs.node place.dropLast = some .dir ∧ fs' = fs.set place .dir := by
  unfold createDir
  split
  · rename_i hnone hparent
    simp [hnone, hparent, eq_comm]
  · simp_all

theorem create_iff : fs.create place = some fs' ↔
    fs.node place ≠ some .dir ∧ fs.node place.dropLast = some .dir ∧ fs' = fs.set place (.file []) := by
  unfold create
  split
  · rename_i hdir
    simp [hdir]
  · rename_i hparent hdir
    simp only [hparent, Option.some.injEq, true_and, ne_eq]
    exact ⟨fun h => ⟨hdir, h.symm⟩, fun h => h.2.symm⟩
  · simp_all

theorem kind_ne_dir : fs.kind q = none ∨ fs.kind q = some .file ↔ fs.node q ≠ some .dir := by
  rw [Ne, ← kind_eq_dir]
  cases fs.kind q with
  | none => simp
  | some k => cases k <;> simp

theorem makeable_iff : fs.Makeable folder e ↔ fs.Leads (folder.joinPath e.path) ∧
    (e.kind = .file → (folder.joinPath e.path).trailing = false) ∧
    fs.node ((folder.joinPath e.path).resolve fs.cwd).dropLast = some .dir ∧
    (fs.kind ((folder.joinPath e.path).resolve fs.cwd) = none ∨
      e.kind = .file ∧ fs.kind ((folder.joinPath e.path).resolve fs.cwd) = some .file) :=
  ⟨fun h => ⟨h.leads, h.bare, kind_eq_dir.mp h.parent, h.free⟩,
    fun h => ⟨h.1, h.2.1, kind_eq_dir.mpr h.2.2.1, h.2.2.2⟩⟩

theorem exec_make_iff : fs.exec (e.make folder) = some fs' ↔
    fs.Makeable folder e ∧ fs' = fs.set ((folder.joinPath e.path).resolve fs.cwd) e.node := by
  rw [makeable_iff]
  cases hkind : e.kind with
  | dir =>
    simp only [Item.make, Item.node, hkind, exec, Option.ite_none_right_eq_some, createDir_iff,
      kind_eq_none]
    simp [and_assoc, and_left_comm]
  | file =>
    simp only [Item.make, Item.node, hkind, exec, Option.ite_none_right_eq_some, create_iff,
      true_and, kind_ne_dir]
    simp [and_assoc, and_left_comm]

theorem Makeable.not_below (hrooted : fs.Rooted) (h : fs.Makeable folder e) {q : Place}
    (hdir : fs.node q = some .dir) : ¬ (folder.joinPath e.path).resolve fs.cwd <+: q := by
  intro hbelow
  refine kind_ne_dir.mp ?_ (hrooted.above hdir hbelow)
  exact h.free.imp id And.right

theorem leads_joinPath {p q : PathBuf} (hrel : q.absolute = false) (hne : q.components ≠ []) :
    fs.Leads (p.joinPath q) ↔ fs.Opens p ∧ q.Named ∧
      ∀ place ∈ PathBuf.steps (p.resolve fs.cwd) q.components.dropLast, fs.node place = some .dir := by
  have hnamed : (p.joinPath q).Named ↔ (∀ c ∈ p.components, 0 ∉ c) ∧ q.Named := by
    rw [PathBuf.joinPath_relative p hrel]
    unfold PathBuf.Named
    rw [List.getLast?_append_of_ne_nil _ hne]
    simp only [List.mem_append, or_imp, forall_and]
    tauto
  have hwalks : (∀ place ∈ PathBuf.steps ((p.joinPath q).root fs.cwd) (p.joinPath q).components.dropLast,
      fs.node place = some .dir) ↔ (∀ place ∈ p.way fs.cwd, fs.node place = some .dir) ∧
        ∀ place ∈ PathBuf.steps (p.resolve fs.cwd) q.components.dropLast, fs.node place = some .dir := by
    rw [PathBuf.joinPath_relative p hrel]
    simp only [List.dropLast_append_of_ne_nil hne, PathBuf.steps_append, List.mem_append, or_imp, forall_and]
    rfl
  rw [leads_iff, hnamed, hwalks]
  exact ⟨fun h => ⟨⟨h.1.1, h.2.1⟩, h.1.2, h.2.2⟩, fun h => ⟨⟨h.1.noNul, h.2.1⟩, h.1.walks, h.2.2⟩⟩

theorem executed_writes {path : PathBuf} {data : List (List UInt8)}
    (h : data = [] ∨ fs.kind (path.resolve fs.cwd) = some .file) (ops : List FsOp) :
    ∃ fs' : FileSystem, fs'.cwd = fs.cwd ∧ fs'.kind = fs.kind ∧
      fs.executed (data.map (.writeAll path) ++ ops) = data.map (.writeAll path) ++ fs'.executed ops := by
  induction data generalizing fs with
  | nil => exact ⟨fs, rfl, rfl, rfl⟩
  | cons bytes data ih =>
    have hfile := h.resolve_left (by simp)
    obtain ⟨content, hnode⟩ := kind_eq_file.mp hfile
    have hkind : (fs.set (path.resolve fs.cwd) (.file (content ++ bytes))).kind = fs.kind := by
      rw [kind_set, Node.kind, ← hfile, Function.update_eq_self]
    have hnext : data = [] ∨ (fs.set (path.resolve fs.cwd) (.file (content ++ bytes))).kind
        (path.resolve fs.cwd) = some .file := Or.inr (by rwa [hkind])
    obtain ⟨fs', hcwd, hkind', hops⟩ := ih hnext
    refine ⟨fs', hcwd, hkind'.trans hkind, ?_⟩
    simp only [List.map_cons, List.cons_append, executed, exec, writeAll_file hnode, hops]

theorem Rooted.congr (h : fs.Rooted) (hkind : fs'.kind = fs.kind) : fs'.Rooted := by
  intro q hq
  rw [← kind_eq_dir, hkind, kind_eq_dir] at hq ⊢
  exact h q hq

/-- `fs'` is `fs` with the item in the folder. -/
structure After (fs : FileSystem) (folder : PathBuf) (e : Item) (fs' : FileSystem) : Prop where
  makeable : fs.Makeable folder e
  cwd : fs'.cwd = fs.cwd
  kind : fs'.kind = Function.update fs.kind ((folder.joinPath e.path).resolve fs.cwd) (some e.kind)
  rooted : fs.Rooted → fs'.Rooted

variable (fs folder) {data : List (List UInt8)} (hdata : e.kind = .dir → data = []) (ops : List FsOp)

include hdata

theorem executed_make :
    ¬ fs.Makeable folder e ∧
      fs.executed (e.make folder :: (data.map (.writeAll (folder.joinPath e.path)) ++ ops)) = [] ∨
    ∃ fs', fs.After folder e fs' ∧
      fs.executed (e.make folder :: (data.map (.writeAll (folder.joinPath e.path)) ++ ops)) =
        e.make folder :: (data.map (.writeAll (folder.joinPath e.path)) ++ fs'.executed ops) := by
  have hnode : e.node.kind = e.kind := by
    unfold Item.node
    split <;> simp_all [Node.kind]
  cases hexec : fs.exec (e.make folder) with
  | none =>
    refine Or.inl ⟨fun hmakeable => ?_, by simp only [executed, hexec]⟩
    rw [exec_make_iff.mpr ⟨hmakeable, rfl⟩] at hexec
    cases hexec
  | some fs₁ =>
    obtain ⟨hmakeable, rfl⟩ := exec_make_iff.mp hexec
    have hkind : (fs.set ((folder.joinPath e.path).resolve fs.cwd) e.node).kind =
        Function.update fs.kind ((folder.joinPath e.path).resolve fs.cwd) (some e.kind) := by
      rw [kind_set, hnode]
    have hfile : data = [] ∨ (fs.set ((folder.joinPath e.path).resolve fs.cwd) e.node).kind
        ((folder.joinPath e.path).resolve fs.cwd) = some .file := by
      cases he : e.kind with
      | dir => exact Or.inl (hdata he)
      | file => exact Or.inr (by rw [hkind, Function.update_self, he])
    obtain ⟨fs', hcwd, hkind', hops⟩ := executed_writes hfile ops
    refine Or.inr ⟨fs', ⟨hmakeable, hcwd, hkind'.trans hkind, fun hrooted => ?_⟩, ?_⟩
    · refine (hrooted.set ?_ (kind_eq_dir.mp hmakeable.parent)).congr hkind'
      exact kind_ne_dir.mp (hmakeable.free.imp id And.right)
    · simp only [executed, hexec, hops]

theorem made_make :
    ¬ fs.Makeable folder e ∧
      fs.executed (e.make folder :: (data.map (.writeAll (folder.joinPath e.path)) ++ ops)) = [] ∨
    ∃ fs', fs.After folder e fs' ∧
      (∀ op, op ∈ fs.executed (e.make folder :: (data.map (.writeAll (folder.joinPath e.path)) ++ ops)) ↔
        op ∈ e.make folder :: data.map (.writeAll (folder.joinPath e.path)) ∨ op ∈ fs'.executed ops) ∧
      fs.made (e.make folder :: (data.map (.writeAll (folder.joinPath e.path)) ++ ops)) =
        (folder.joinPath e.path).resolve fs.cwd :: fs'.made ops := by
  rcases executed_make fs folder hdata ops with hnone | ⟨fs', hafter, hops⟩
  · exact Or.inl hnone
  · refine Or.inr ⟨fs', hafter, fun op => by simp [hops, or_assoc], ?_⟩
    have hmade : (e.make folder).made = some (folder.joinPath e.path) := by
      unfold Item.make
      split <;> rfl
    have hwrites : (data.map (FsOp.writeAll (folder.joinPath e.path))).filterMap FsOp.made = [] := by
      rw [List.filterMap_eq_nil_iff]
      intro op hop
      obtain ⟨bytes, -, rfl⟩ := List.mem_map.mp hop
      rfl
    rw [made, hops, List.filterMap_cons_some hmade, List.filterMap_append, hwrites, List.nil_append,
      List.map_cons, made, hafter.cwd]

end FileSystem

end DasProtokoll
