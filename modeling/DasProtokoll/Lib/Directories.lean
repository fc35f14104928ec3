import DasProtokoll.Lib.FileSystem
import DasProtokoll.Lib.Overwrite

/-!
# Directories on the way to a file

A path passes places, one behind each of its components. `createDirAll` makes the
directories that are missing on the way.
-/

namespace DasProtokoll

namespace PathBuf

theorem push_dot (at_ : Place) : push at_ dot = at_ := if_pos rfl

/-- From `at_` on, relative to some directory, the path never goes up out of that directory. -/
def StaysBelow (at_ : Place) : List OsString → Prop
  | [] => True
  | component :: components =>
    (component = dots → at_ ≠ []) ∧ StaysBelow (push at_ component) components

instance StaysBelow.decidable : ∀ at_ components, Decidable (StaysBelow at_ components)
  | _, [] => isTrue trivial
  | at_, component :: components =>
    have := StaysBelow.decidable (push at_ component) components
    inferInstanceAs (Decidable (_ ∧ _))

theorem push_below {base at_ : Place} {component : OsString}
    (h : component = dots → at_ ≠ []) :
    push (base ++ at_) component = base ++ push at_ component := by
  unfold push
  split
  · rfl
  · split
    · rename_i hdots
      exact List.dropLast_append_of_ne_nil (h hdots)
    · exact List.append_assoc ..

theorem steps_below {base at_ : Place} {components : List OsString}
    (h : StaysBelow at_ components) :
    steps (base ++ at_) components = (steps at_ components).map (base ++ ·) := by
  induction components generalizing at_ with
  | nil => rfl
  | cons component components ih =>
    rw [steps, push_below h.1, ih h.2]
    rfl

theorem foldl_push_below {base at_ : Place} {components : List OsString}
    (h : StaysBelow at_ components) :
    components.foldl push (base ++ at_) = base ++ components.foldl push at_ := by
  induction components generalizing at_ with
  | nil => rfl
  | cons component components ih =>
    rw [List.foldl_cons, push_below h.1, ih h.2]
    rfl

end PathBuf

namespace FileSystem

/-- Follows the components and makes the directories that are missing, and tells which ones. The last one
cannot be made under a path that goes on with dots. -/
def makeDirs (fs : FileSystem) (at_ : Place) : List OsString → Option (FileSystem × List Place)
  | [] => some (fs, [])
  | component :: components =>
    let place := PathBuf.push at_ component
    match fs.node place with
    | some .dir => fs.makeDirs place components
    | some (.file _) => none
    | none =>
      if components ≠ [] ∧ ∀ c ∈ components, c = PathBuf.dot then none
      else do
        let (fs, made) ← (fs.set place .dir).makeDirs place components
        return (fs, place :: made)

def createDirAll (fs : FileSystem) (path : PathBuf) : Option (FileSystem × List Place) :=
  fs.makeDirs (path.root fs.cwd) path.components

/-- Opens a file for writing, and creates it where there is none. -/
def openCreate (fs : FileSystem) (place : Place) : Option FileSystem :=
  match fs.node place, fs.node place.dropLast with
  | some .dir, _ => none
  | some (.file _), _ => some fs
  | none, some .dir => some (fs.set place (.file []))
  | none, _ => none

def content (fs : FileSystem) (place : Place) : Option (List UInt8) :=
  match fs.node place with
  | some (.file content) => some content
  | _ => none

def setLen (fs : FileSystem) (place : Place) (length : Nat) : FileSystem :=
  fs.set place (.file (resize 0 ((fs.content place).getD []) length))

/-! ## What a change leaves behind -/

theorem set_node (fs : FileSystem) (place : Place) (n : Node) (q : Place) :
    (fs.set place n).node q = if q = place then some n else fs.node q :=
  Function.update_apply ..

theorem makeDirs_ok {fs fs' : FileSystem} {at_ : Place} {components : List OsString}
    {made : List Place} (h : fs.makeDirs at_ components = some (fs', made)) :
    (∀ place, place ∈ made ↔ place ∈ PathBuf.steps at_ components ∧ fs.node place ≠ some .dir) ∧
      fs'.cwd = fs.cwd ∧
      ∀ place, fs'.node place = if place ∈ made then some .dir else fs.node place := by
  induction components generalizing fs at_ made with
  | nil =>
    unfold makeDirs at h
    obtain ⟨rfl, rfl⟩ := Prod.mk.inj (Option.some.inj h)
    simp [PathBuf.steps]
  | cons component components ih =>
    unfold makeDirs at h
    simp only at h
    split at h
    · rename_i hdir
      obtain ⟨hmade, hcwd, hnode⟩ := ih h
      refine ⟨?_, hcwd, hnode⟩
      intro place
      rw [hmade, PathBuf.steps, List.mem_cons]
      grind
    · cases h
    · rename_i hnone
      simp only [Option.ite_none_left_eq_some, Option.bind_eq_bind, Option.bind_eq_some_iff,
        Option.pure_def, Option.some.injEq, Prod.mk.injEq] at h
      obtain ⟨-, ⟨fs₁, made₁⟩, h, rfl, rfl⟩ := h
      obtain ⟨hmade, hcwd, hnode⟩ := ih h
      refine ⟨?_, hcwd, ?_⟩
      · intro place
        rw [List.mem_cons, hmade, PathBuf.steps, List.mem_cons, set_node]
        grind
      · intro place
        have hplace := hnode place
        simp only [set_node] at hplace
        simp only [List.mem_cons, hplace]
        grind

theorem content_set (fs : FileSystem) (place : Place) (c : List UInt8) (q : Place) :
    (fs.set place (.file c)).content q = if q = place then some c else fs.content q := by
  unfold content
  rw [set_node]
  by_cases hq : q = place
  · rw [if_pos hq, if_pos hq]
  · rw [if_neg hq, if_neg hq]

theorem openCreate_ok {fs fs' : FileSystem} {place : Place} (h : fs.openCreate place = some fs') :
    fs.node place ≠ some .dir ∧ fs' = fs.set place (.file ((fs.content place).getD [])) := by
  unfold openCreate at h
  split at h
  · cases h
  · rename_i c hnode
    refine ⟨by simp [hnode], ?_⟩
    have hself : Function.update fs.node place (some (.file c)) = fs.node := by
      rw [← hnode, Function.update_eq_self]
    rw [content, hnode, Option.getD_some, set, hself, ← Option.some.inj h]
  · rename_i hnode _
    refine ⟨by simp [hnode], ?_⟩
    rw [content, hnode, ← Option.some.inj h]
    rfl
  · cases h

theorem createDirAll_ok {fs fs' : FileSystem} {path : PathBuf} {made : List Place}
    (h : fs.createDirAll path = some (fs', made)) :
    (∀ place, place ∈ made ↔ place ∈ path.way fs.cwd ∧ fs.node place ≠ some .dir) ∧
      fs'.cwd = fs.cwd ∧
      ∀ place, fs'.node place = if place ∈ made then some .dir else fs.node place :=
  makeDirs_ok h

theorem makeDirs_total {fs : FileSystem} {at_ : Place} {components : List OsString}
    (hlast : components.getLast? ≠ some PathBuf.dot)
    (h : ∀ place ∈ PathBuf.steps at_ components, ∀ content, fs.node place ≠ some (.file content)) :
    ∃ r, fs.makeDirs at_ components = some r := by
  induction components generalizing fs at_ with
  | nil => exact ⟨_, rfl⟩
  | cons component components ih =>
    simp only [PathBuf.steps, List.forall_mem_cons] at h
    obtain ⟨hhere, hbelow⟩ := h
    unfold makeDirs
    simp only
    have hrest : components.getLast? ≠ some PathBuf.dot := by
      cases components with
      | nil => simp
      | cons c cs => simpa using hlast
    have hdots : ¬ (components ≠ [] ∧ ∀ c ∈ components, c = PathBuf.dot) := by
      rintro ⟨hne, hall⟩
      have hmem := List.getLast_mem hne
      exact hrest (by rw [List.getLast?_eq_some_getLast hne, hall _ hmem])
    split
    · exact ih hrest hbelow
    · rename_i content hfile
      exact absurd hfile (hhere content)
    · have hset : ∀ place ∈ PathBuf.steps (PathBuf.push at_ component) components, ∀ content,
          (fs.set (PathBuf.push at_ component) .dir).node place ≠ some (.file content) := by
        intro place hplace content
        rw [set_node]
        split
        · simp
        · exact hbelow place hplace content
      obtain ⟨r, hr⟩ := ih hrest hset
      exact ⟨_, by rw [if_neg hdots, hr]; rfl⟩

theorem openCreate_new {fs : FileSystem} {place : Place} (hnone : fs.node place = none)
    (hparent : fs.node place.dropLast = some .dir) :
    fs.openCreate place = some (fs.set place (.file [])) := by
  rw [openCreate, hnone, hparent]

theorem node_of_content {fs : FileSystem} {place : Place} {c : List UInt8} (h : fs.content place = some c) :
    fs.node place = some (.file c) := by
  unfold content at h
  split at h
  · rename_i c' hnode
    rw [hnode, Option.some.inj h]
  · cases h

theorem createDirAll_content {fs fs' : FileSystem} {path : PathBuf} {made : List Place}
    (h : fs.createDirAll path = some (fs', made)) {place : Place}
    (hplace : fs'.node place ≠ some .dir) :
    fs'.node place = fs.node place ∧ fs'.content place = fs.content place := by
  have hnode : fs'.node place = fs.node place := by
    rw [(createDirAll_ok h).2.2] at hplace ⊢
    rw [if_neg]
    intro hmade
    rw [if_pos hmade] at hplace
    exact hplace rfl
  exact ⟨hnode, by rw [content, content, hnode]⟩

end FileSystem

end DasProtokoll
