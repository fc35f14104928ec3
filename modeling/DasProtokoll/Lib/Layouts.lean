import DasProtokoll.Lib.Items

/-!
# Layouts of a folder

A layout keeps what is in the folder and knows nothing else, so it tells for all folders
and file systems at once whether the items stay in the folder.
-/

namespace DasProtokoll

/-! ## Layouts -/

/-- A name that no path can have in it. -/
def mark : OsString := [PathBuf.slash]

/-- A folder that no path enters again once it is left. -/
def base (n : Nat) : Place := List.replicate n mark

/-- The folder with what is in it. All around there are directories. -/
abbrev Layout := Place → Option Kind

def emptyLayout (n : Nat) : Layout := fun place =>
  if base n <+: place then if place = base n then some .dir else none else some .dir

/-- The system makes the item, at least where nothing outside of the folder is in its way. -/
structure Accepts (n : Nat) (layout : Layout) (e : Item) : Prop where
  named : e.path.Named
  bare : e.kind = .file → e.path.trailing = false
  walks : ∀ place ∈ PathBuf.steps (e.path.root (base n)) e.path.components.dropLast,
    layout place = some .dir ∧ ¬ e.path.resolve (base n) <+: place
  free : base n <+: e.path.resolve (base n) → layout (e.path.resolve (base n)) = none ∨
    e.kind = .file ∧ layout (e.path.resolve (base n)) = some .file

/-- Each item, as long as the system makes them, gets a place of its own in the folder. -/
def Contained (n : Nat) : Layout → List Item → Prop
  | _, [] => True
  | layout, e :: items => Accepts n layout e →
    base n <+: e.path.resolve (base n) ∧ layout (e.path.resolve (base n)) = none ∧
      Contained n (Function.update layout (e.path.resolve (base n)) (some e.kind)) items

/-! ## Two walks by the same names -/

section Walks

open PathBuf

variable {n k : Nat} {at_ folder c r : Place} {component : OsString} {components : List OsString}

theorem outside_push (hc : component ≠ mark) (h : ¬ base n <+: at_) :
    ¬ base n <+: push at_ component := by
  intro hin
  have heq := (prefix_push hin).resolve_left h
  unfold push at heq
  split at heq
  · exact h (heq ▸ List.prefix_rfl)
  · split at heq
    · exact h (heq ▸ List.dropLast_prefix at_)
    · have hmem : component ∈ base n := by simp [heq]
      exact hc (List.eq_of_mem_replicate hmem)

theorem outside_foldl (hcomponents : mark ∉ components) (h : ¬ base n <+: at_) :
    ¬ base n <+: components.foldl push at_ := by
  induction components generalizing at_ with
  | nil => exact h
  | cons component components ih =>
    rw [List.mem_cons, not_or] at hcomponents
    exact ih hcomponents.2 (outside_push (Ne.symm hcomponents.1) h)

/-- One walk from the base, one from a folder: both went up as far, and came then by the same names. -/
def Twin (n k : Nat) (folder c r : Place) : Prop := ∃ up names, up ≤ k ∧ mark ∉ names ∧
  c = List.replicate (n - up) mark ++ names ∧ r = folder.take (folder.length - up) ++ names

theorem twin_start (n : Nat) (folder : Place) : Twin n 0 folder (base n) folder :=
  ⟨0, [], le_rfl, by simp, by simp [base], by simp⟩

theorem Twin.push (h : Twin n k folder c r) (hc : component ≠ mark) :
    Twin n (k + 1) folder (push c component) (push r component) := by
  obtain ⟨up, names, hup, hnames, rfl, rfl⟩ := h
  unfold PathBuf.push
  split
  · exact ⟨up, names, by omega, hnames, rfl, rfl⟩
  · split
    · by_cases hnil : names = []
      · subst hnil
        refine ⟨up + 1, [], by omega, by simp, ?_, ?_⟩
        · rw [List.append_nil, List.append_nil, List.dropLast_replicate, Nat.sub_sub]
        · rw [List.append_nil, List.append_nil, List.dropLast_eq_take, List.length_take, List.take_take]
          congr 1
          omega
      · refine ⟨up, names.dropLast, by omega, fun hmem => hnames (List.dropLast_subset _ hmem), ?_, ?_⟩
        · rw [List.dropLast_append_of_ne_nil hnil]
        · rw [List.dropLast_append_of_ne_nil hnil]
    · refine ⟨up, names ++ [component], by omega, ?_, by simp, by simp⟩
      simpa [hnames] using Ne.symm hc

theorem Twin.foldl (h : Twin n k folder c r) (hk : components.length + k ≤ n) (hc : mark ∉ components) :
    Twin n n folder (components.foldl PathBuf.push c) (components.foldl PathBuf.push r) := by
  induction components generalizing k c r with
  | nil =>
    obtain ⟨up, names, hup, h⟩ := h
    rw [List.length_nil] at hk
    exact ⟨up, names, by omega, h⟩
  | cons component components ih =>
    rw [List.length_cons] at hk
    rw [List.mem_cons, not_or] at hc
    exact ih (h.push (Ne.symm hc.1)) (by omega) hc.2

theorem Twin.inside (h : Twin n n folder c r) (hin : base n <+: c) :
    ∃ names, c = base n ++ names ∧ r = folder ++ names := by
  obtain ⟨up, names, hup, hnames, rfl, rfl⟩ := h
  have hcount := hin.sublist.count_le mark
  rw [base, List.count_append, List.count_replicate_self, List.count_replicate_self,
    List.count_eq_zero.mpr hnames] at hcount
  obtain rfl : up = 0 := by omega
  exact ⟨names, rfl, by simp⟩

theorem Twin.below {name : OsString} {t x : Place} (ht : Twin n n folder (t ++ [name]) x)
    (hname : name ≠ mark) (h : Twin n n folder c r) (hbelow : t ++ [name] <+: c) : x <+: r := by
  obtain ⟨up, names, hup, hnames, htc, rfl⟩ := ht
  obtain ⟨up', names', hup', hnames', rfl, rfl⟩ := h
  have hne : names ≠ [] := by
    rintro rfl
    have hmem : name ∈ t ++ [name] := by simp
    rw [htc, List.append_nil] at hmem
    exact hname (List.eq_of_mem_replicate hmem)
  obtain ⟨first, names, rfl⟩ := List.exists_cons_of_ne_nil hne
  rw [htc] at hbelow
  have hcount := hbelow.sublist.count_le mark
  rw [List.count_append, List.count_append, List.count_replicate_self, List.count_replicate_self,
    List.count_eq_zero.mpr hnames, List.count_eq_zero.mpr hnames'] at hcount
  obtain ⟨d, hd⟩ : ∃ d, n - up' = n - up + d := ⟨n - up' - (n - up), by omega⟩
  rw [hd, List.replicate_add, List.append_assoc, List.prefix_append_right_inj] at hbelow
  cases d with
  | zero =>
    obtain rfl : up' = up := by omega
    simpa using hbelow
  | succ d =>
    rw [List.replicate_succ, List.cons_append, List.cons_prefix_cons] at hbelow
    exact absurd (by simp [hbelow.1]) hnames

end Walks

/-! ## Contained items stay -/

/-- All that is made is new and in the folder. -/
def Stays (fs : FileSystem) (folder : PathBuf) (ops : List FsOp) : Prop :=
  fs.Confined folder ops ∧ ∀ place ∈ fs.made ops, fs.kind place = none

/-- The folder of the file system has what the layout says. -/
structure Agrees (n : Nat) (layout : Layout) (folder : PathBuf) (fs : FileSystem) : Prop where
  rooted : fs.Rooted
  outside : ∀ q, ¬ base n <+: q → layout q = some .dir
  inside : ∀ names, layout (base n ++ names) = fs.kind (folder.resolve fs.cwd ++ names)
  folder : layout (base n) = some .dir

section Stays

open PathBuf FileSystem

variable {n : Nat} {layout : Layout} {folder : PathBuf} {fs : FileSystem} {e : Item}
  {items : List Item} {ops : List FsOp}

theorem twin_resolve (folder : PathBuf) (fs : FileSystem) (hsplit : mark ∉ e.path.components)
    (hlen : e.path.components.length ≤ n)
    {components : List OsString} (hfront : components <+: e.path.components) :
    Twin n n (folder.resolve fs.cwd) (components.foldl push (base n))
      (components.foldl push (folder.resolve fs.cwd)) := by
  apply (twin_start n _).foldl
  · exact hfront.length_le.trans hlen
  · exact fun hmem => hsplit (hfront.subset hmem)

theorem not_base_nil (hn : 0 < n) : ¬ base n <+: [] := by
  rw [List.prefix_nil, base, List.replicate_eq_nil_iff]
  omega

theorem Agrees.accepts_absolute (hn : 0 < n) (h : Agrees n layout folder fs)
    (habs : e.path.absolute = true) (hsplit : mark ∉ e.path.components)
    (hmake : fs.Makeable folder e) : Accepts n layout e ∧ ¬ base n <+: e.path.resolve (base n) := by
  have hpath : folder.joinPath e.path = e.path := by rw [joinPath, if_pos habs]
  have hout : ¬ base n <+: e.path.resolve (base n) := by
    rw [resolve, root, if_pos habs]
    exact outside_foldl hsplit (not_base_nil hn)
  refine ⟨⟨hpath ▸ hmake.leads.named, fun hfile => hpath ▸ hmake.bare hfile, fun place hplace => ?_,
    fun hin => absurd hin hout⟩, hout⟩
  rw [root, if_pos habs] at hplace
  constructor
  · obtain ⟨front, -, hfront, rfl⟩ := mem_steps_iff.mp hplace
    apply h.outside
    exact outside_foldl (fun hmem => hsplit (List.dropLast_subset _ (hfront.subset hmem))) (not_base_nil hn)
  · have hdir := hmake.leads.walks place
    have hbelow := hmake.not_below h.rooted (q := place)
    rw [hpath, root, if_pos habs] at hdir
    rw [hpath, resolve, root, if_pos habs] at hbelow
    rw [resolve, root, if_pos habs]
    exact hbelow (hdir hplace)

theorem Agrees.accepts_relative (h : Agrees n layout folder fs) (hrel : e.path.absolute = false)
    (hsplit : mark ∉ e.path.components) (hlen : e.path.components.length ≤ n)
    (hmake : fs.Makeable folder e) : Accepts n layout e ∧ (base n <+: e.path.resolve (base n) →
      ∃ names, e.path.resolve (base n) = base n ++ names ∧
        (folder.joinPath e.path).resolve fs.cwd = folder.resolve fs.cwd ++ names) := by
  have hplace := resolve_joinPath (p := folder) hrel fs.cwd
  have hroot : e.path.root (base n) = base n := by simp [root, hrel]
  have hne : e.path.components ≠ [] := by
    intro hnil
    have hself := h.inside []
    rw [List.append_nil, List.append_nil, h.folder] at hself
    have hfree := hmake.free
    rw [hplace, hnil, List.foldl_nil, ← hself] at hfree
    simp at hfree
  obtain ⟨-, hnamed, hwalks⟩ := (leads_joinPath hrel hne).mp hmake.leads
  have hinside : base n <+: e.path.resolve (base n) → ∃ names,
      e.path.resolve (base n) = base n ++ names ∧
        (folder.joinPath e.path).resolve fs.cwd = folder.resolve fs.cwd ++ names := by
    rw [hplace, resolve, hroot]
    exact (twin_resolve folder fs hsplit hlen List.prefix_rfl).inside
  refine ⟨⟨hnamed, fun hfile => ?_, fun place hstep => ?_, fun hin => ?_⟩, hinside⟩
  · have hbare := hmake.bare hfile
    rw [joinPath_relative folder hrel, Bool.or_eq_false_iff] at hbare
    exact hbare.1
  · rw [hroot] at hstep
    obtain ⟨front, hfront, hpre, rfl⟩ := mem_steps_iff.mp hstep
    have htwin := twin_resolve folder fs hsplit hlen
      (hpre.trans (List.dropLast_prefix _))
    have hdir := hwalks _ (mem_steps_iff.mpr ⟨front, hfront, hpre, rfl⟩)
    constructor
    · by_cases hin : base n <+: front.foldl push (base n)
      · obtain ⟨names, hc, hr⟩ := htwin.inside hin
        rw [hc, h.inside, ← hr, kind_eq_dir]
        exact hdir
      · exact h.outside _ hin
    · intro hbelow
      apply hmake.not_below h.rooted hdir
      have hself := twin_resolve folder fs hsplit hlen List.prefix_rfl
      obtain ⟨name, hname, hlast⟩ := resolve_named hnamed (base n)
      rw [resolve, hroot] at hbelow hlast
      rw [hlast] at hself hbelow
      rw [hplace]
      exact hself.below (fun heq => hsplit (heq ▸ hname)) htwin hbelow
  · obtain ⟨names, hc, hr⟩ := hinside hin
    rw [hc, h.inside, ← hr]
    exact hmake.free

theorem Agrees.after (h : Agrees n layout folder fs) {fs' : FileSystem} (hafter : fs.After folder e fs')
    {names : Place} (hnone : layout (base n ++ names) = none)
    (hplace : (folder.joinPath e.path).resolve fs.cwd = folder.resolve fs.cwd ++ names) :
    Agrees n (Function.update layout (base n ++ names) (some e.kind)) folder fs' := by
  refine ⟨hafter.rooted h.rooted, fun q hq => ?_, fun names' => ?_, ?_⟩
  · rw [Function.update_of_ne, h.outside q hq]
    rintro rfl
    exact hq (List.prefix_append _ _)
  · rw [hafter.kind, hafter.cwd, hplace]
    by_cases heq : names' = names
    · rw [heq, Function.update_self, Function.update_self]
    · rw [Function.update_of_ne (by simpa using heq), Function.update_of_ne (by simpa using heq), h.inside]
  · rw [Function.update_of_ne, h.folder]
    rintro heq
    rw [← heq, h.folder] at hnone
    cases hnone

theorem path_of_mem (data : List (List UInt8)) {op : FsOp}
    (h : op ∈ e.make folder :: data.map (.writeAll (folder.joinPath e.path))) :
    op.path = folder.joinPath e.path := by
  rcases List.mem_cons.mp h with rfl | h
  · unfold Item.make
    split <;> rfl
  · obtain ⟨bytes, -, rfl⟩ := List.mem_map.mp h
    rfl

/-- By induction on the items. All that is made is new, so nothing is made twice. -/
theorem Contained.stays (hn : 0 < n) (hsplit : ∀ e ∈ items, mark ∉ e.path.components)
    (hlen : ∀ e ∈ items, e.path.components.length ≤ n) (h : Contained n layout items)
    (hmakes : Makes folder items ops) (hagrees : Agrees n layout folder fs) :
    Stays fs folder ops := by
  induction hmakes generalizing layout fs with
  | nil => exact ⟨⟨by simp [executed], by simp [made, executed]⟩, by simp [made, executed]⟩
  | @cons e data items ops hdata _ ih =>
    rw [List.forall_mem_cons] at hsplit hlen
    rcases made_make fs folder hdata ops with ⟨-, hnone⟩ | ⟨fs', hafter, hexecuted, hmade⟩
    · exact ⟨⟨by simp [hnone], by simp [made, hnone]⟩, by simp [made, hnone]⟩
    · obtain ⟨names, hc, hr, hnone, hnext⟩ : ∃ names, e.path.resolve (base n) = base n ++ names ∧
          (folder.joinPath e.path).resolve fs.cwd = folder.resolve fs.cwd ++ names ∧
            layout (base n ++ names) = none ∧
              Contained n (Function.update layout (base n ++ names) (some e.kind)) items := by
        cases habs : e.path.absolute with
        | true =>
          obtain ⟨haccepts, hout⟩ := hagrees.accepts_absolute hn habs hsplit.1 hafter.makeable
          exact absurd (h haccepts).1 hout
        | false =>
          obtain ⟨haccepts, hinside⟩ := hagrees.accepts_relative habs hsplit.1 hlen.1 hafter.makeable
          obtain ⟨hin, hnone, hnext⟩ := h haccepts
          obtain ⟨names, hc, hr⟩ := hinside hin
          rw [hc] at hnone hnext
          exact ⟨names, hc, hr, hnone, hnext⟩
      obtain ⟨⟨hstays, hapart⟩, hnew⟩ :=
        ih hsplit.2 hlen.2 hnext (hagrees.after hafter hnone hr)
      rw [hafter.cwd] at hstays
      rw [hafter.kind] at hnew
      have hfree : fs.kind ((folder.joinPath e.path).resolve fs.cwd) = none := by
        rw [hr, ← hagrees.inside, hnone]
      refine ⟨⟨fun op hop => ?_, ?_⟩, fun q hq => ?_⟩
      · rcases (hexecuted op).mp hop with hop | hop
        · rw [path_of_mem data hop, hr]
          exact List.prefix_append _ _
        · exact hstays op hop
      · rw [hmade, List.nodup_cons]
        refine ⟨fun hmem => ?_, hapart⟩
        have hself := hnew _ hmem
        rw [Function.update_self] at hself
        cases hself
      · rw [hmade, List.mem_cons] at hq
        by_cases heq : q = (folder.joinPath e.path).resolve fs.cwd
        · rw [heq, hfree]
        · have hnone := hnew q (hq.resolve_left heq)
          rwa [Function.update_of_ne heq] at hnone

end Stays

/-! ## Plain names -/

theorem contained_of_names {n : Nat} {layout : Layout} {items : List Item}
    (hrel : ∀ e ∈ items, e.path.absolute = false) (hnames : ∀ e ∈ items, ∀ c ∈ e.path.components, IsName c)
    (hnodup : (items.map fun e => e.path.components).Nodup)
    (hnew : ∀ e ∈ items, layout (base n ++ e.path.components) = none) : Contained n layout items := by
  induction items generalizing layout with
  | nil => trivial
  | cons e items ih =>
    rw [List.forall_mem_cons] at hrel hnames hnew
    rw [List.map_cons, List.nodup_cons] at hnodup
    have hplace : e.path.resolve (base n) = base n ++ e.path.components := by
      simp [PathBuf.resolve, PathBuf.root, hrel.1, PathBuf.foldl_push_names hnames.1]
    intro _
    rw [hplace]
    refine ⟨List.prefix_append _ _, hnew.1, ih hrel.2 hnames.2 hnodup.2 fun e' he' => ?_⟩
    rw [Function.update_of_ne, hnew.2 e' he']
    intro heq
    exact hnodup.1 (List.mem_map.mpr ⟨e', he', List.append_cancel_left heq⟩)

end DasProtokoll
