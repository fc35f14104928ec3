import DasProtokoll.Lib.Joins
import Mathlib.Data.List.Induction

/-!
# The files of a tree

Each file has a path of its own, and no path leads through another file.
-/

namespace DasProtokoll

/-! ## Paths as strings -/

namespace PathBuf

/-- The components with a slash between them. -/
def toOsString (p : PathBuf) : OsString :=
  (if p.absolute then [slash] else []) ++ [slash].intercalate p.components

def toStr (p : PathBuf) : Option String := OsString.fromUtf8 p.toOsString

/-- What is behind the base, if the path starts with it. -/
def stripPrefix (p base : PathBuf) : Option PathBuf :=
  if p.absolute = base.absolute ∧ base.normal.components <+: p.normal.components then
    some { absolute := false, components := p.normal.components.drop base.normal.components.length }
  else none

variable {names : List OsString}

theorem normal_append (p : PathBuf) (h : ∀ n ∈ names, IsName n) :
    normal { p with components := p.components ++ names, trailing := false } =
      { p.normal with components := p.normal.components ++ names } := by
  induction names using List.reverseRecOn with
  | nil => simp [normal]
  | append_singleton names n ih =>
    have hn := h n (by simp)
    have hnames : ∀ m ∈ names, IsName m := fun m hm => h m (by simp [hm])
    have hjoin := normal_join hn { p with components := p.components ++ names, trailing := false }
    rw [join_name hn] at hjoin
    simp only [List.append_assoc] at hjoin
    rw [hjoin, ih hnames]
    simp

theorem stripPrefix_append (p : PathBuf) (h : ∀ n ∈ names, IsName n) :
    stripPrefix { p with components := p.components ++ names, trailing := false } p =
      some { absolute := false, components := names } := by
  simp [stripPrefix, normal_append p h]

theorem head_intercalate (h : ∀ n ∈ names, IsName n) :
    ([slash].intercalate names).head? ≠ some slash := by
  cases names with
  | nil => simp
  | cons n names =>
    have hn := (h n (by simp)).no_slash
    obtain ⟨b, bs, rfl⟩ := List.exists_cons_of_ne_nil (h n (by simp)).ne_empty
    have hb : b ≠ slash := fun heq => hn (by simp [heq])
    cases names with
    | nil => simpa using hb
    | cons m names => simpa using hb

theorem getLast_intercalate (h : ∀ n ∈ names, IsName n) :
    ([slash].intercalate names).getLast? ≠ some slash := by
  induction names with
  | nil => simp
  | cons n names ih =>
    rw [List.forall_mem_cons] at h
    cases names with
    | nil =>
      intro hlast
      exact h.1.no_slash (List.mem_of_getLast? (by simpa using hlast))
    | cons m names =>
      have hne : [slash].intercalate (m :: names) ≠ [] := by
        obtain ⟨b, bs, hm⟩ := List.exists_cons_of_ne_nil (h.2 m (by simp)).ne_empty
        cases names <;> simp [hm]
      rw [List.intercalate_cons_cons, List.getLast?_append_of_ne_nil _ hne]
      exact ih h.2

theorem ofOsString_intercalate (h : ∀ n ∈ names, IsName n) :
    ofOsString ([slash].intercalate names) = { absolute := false, components := names } := by
  have hhead : (([slash].intercalate names).head? == some slash) = false := by
    rw [beq_eq_false_iff_ne]
    exact head_intercalate h
  have hfilter : names.filter (· ≠ []) = names := by
    rw [List.filter_eq_self]
    intro n hn
    simpa using (h n hn).ne_empty
  have hlast : (([slash].intercalate names).getLast? == some slash) = false := by
    rw [beq_eq_false_iff_ne]
    exact getLast_intercalate h
  unfold ofOsString
  cases names with
  | nil => rfl
  | cons n names =>
    have hsplit := List.splitOn_intercalate slash (fun n hn => (h n hn).no_slash) (List.cons_ne_nil n names)
    rw [List.splitOn_eq_splitOnP] at hsplit
    rw [hhead, hlast, hsplit, hfilter]

end PathBuf

/-! ## Files and their paths -/

/-- Neither path leads through the end of the other one. -/
def Apart (p q : Place) : Prop := ¬ p <+: q ∧ ¬ q <+: p

theorem Apart.symm {p q : Place} (h : Apart p q) : Apart q p := ⟨h.2, h.1⟩

theorem Apart.ne {p q : Place} (h : Apart p q) : p ≠ q := by
  rintro rfl
  exact h.1 List.prefix_rfl

theorem apart_append {base p q : Place} : Apart (base ++ p) (base ++ q) ↔ Apart p q := by
  simp [Apart, List.prefix_append_right_inj]

namespace Forest

/-- The files below a directory, each with its path. -/
def files : Forest → List (Place × List UInt8)
  | nil => []
  | file name content rest => ([name], content) :: rest.files
  | dir name entries rest => (entries.files.map fun f => (name :: f.1, f.2)) ++ rest.files

variable {F : Forest} {f : Place × List UInt8}

theorem files_head (h : f ∈ F.files) : ∃ name ∈ F.names, ∃ path, f.1 = name :: path := by
  induction F with
  | nil => simp [files] at h
  | file name content rest ih =>
    rcases List.mem_cons.mp h with rfl | h
    · exact ⟨name, by simp [names], [], rfl⟩
    · obtain ⟨n, hn, hpath⟩ := ih h
      exact ⟨n, List.mem_cons_of_mem _ hn, hpath⟩
  | dir name entries rest _ ih =>
    rcases List.mem_append.mp h with h | h
    · obtain ⟨g, -, rfl⟩ := List.mem_map.mp h
      exact ⟨name, by simp [names], g.1, rfl⟩
    · obtain ⟨n, hn, hpath⟩ := ih h
      exact ⟨n, List.mem_cons_of_mem _ hn, hpath⟩

theorem files_ne_nil (h : f ∈ F.files) : f.1 ≠ [] := by
  obtain ⟨name, -, path, hpath⟩ := files_head h
  simp [hpath]

theorem files_isName (hF : F.WellFormed) (h : f ∈ F.files) : ∀ n ∈ f.1, IsName n := by
  induction F generalizing f with
  | nil => simp [files] at h
  | file name content rest ih =>
    rcases List.mem_cons.mp h with rfl | h
    · simpa using hF.1
    · exact ih hF.2.2 h
  | dir name entries rest ihe ih =>
    rcases List.mem_append.mp h with h | h
    · obtain ⟨g, hg, rfl⟩ := List.mem_map.mp h
      exact List.forall_mem_cons.mpr ⟨hF.1, ihe hF.2.2.1 hg⟩
    · exact ih hF.2.2.2 h

theorem apart_of_head {p q path path' : Place} {n m : OsString} (hp : p = n :: path) (hq : q = m :: path')
    (hne : n ≠ m) : Apart p q := by
  subst hp hq
  simp [Apart, List.cons_prefix_cons, hne, hne.symm]

theorem files_apart (hF : F.WellFormed) : F.files.Pairwise fun f g => Apart f.1 g.1 := by
  induction F with
  | nil => exact .nil
  | file name content rest ih =>
    refine List.pairwise_cons.mpr ⟨fun g hg => ?_, ih hF.2.2⟩
    obtain ⟨n, hn, path, hpath⟩ := files_head hg
    exact apart_of_head rfl hpath fun heq => hF.2.1 (heq ▸ hn)
  | dir name entries rest ihe ih =>
    refine List.pairwise_append.mpr ⟨?_, ih hF.2.2.2, ?_⟩
    · refine List.pairwise_map.mpr ((ihe hF.2.2.1).imp ?_)
      intro f g hfg
      simpa [Apart, List.cons_prefix_cons] using hfg
    · intro f hf g hg
      obtain ⟨f', -, rfl⟩ := List.mem_map.mp hf
      obtain ⟨n, hn, path, hpath⟩ := files_head hg
      exact apart_of_head rfl hpath fun heq => hF.2.1 (heq ▸ hn)

end Forest

end DasProtokoll
