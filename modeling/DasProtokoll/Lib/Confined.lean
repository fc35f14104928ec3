import DasProtokoll.Lib.Layouts

/-!
# Staying in a folder

A file system that lets the writer out of the folder, wherever the layout does. So the
items stay in every folder exactly when they are contained.
-/

namespace DasProtokoll

/-! ## Items that stay are contained -/

/-- The folder `/q/q/…/q`. -/
def chain (q : OsString) (n : Nat) : PathBuf where
  absolute := true
  components := List.replicate n q

/-- The names of the base and of the chain are exchanged. -/
def exchange (q : OsString) (place : Place) : Place := place.map (Equiv.swap q mark)

/-- The file system has what the layout says, but nothing at the hole. -/
structure Mirrors (q : OsString) (layout : Layout) (hole : Place) (fs : FileSystem) : Prop where
  cwd : fs.cwd = []
  kind : ∀ place, fs.kind (exchange q place) = if hole <+: exchange q place then none else layout place

/-- A place that is neither above nor in the folder. -/
def Aside (q : OsString) (n : Nat) (hole : Place) : Prop :=
  ¬ hole <+: List.replicate n q ∧ ¬ List.replicate n q <+: hole

/-- All around and above the folder there are directories. -/
structure Layout.Open (layout : Layout) (n : Nat) : Prop where
  outside : ∀ place, ¬ base n <+: place → layout place = some .dir
  folder : layout (base n) = some .dir

section Exchange

open PathBuf FileSystem

variable {q : OsString} {n : Nat} {layout : Layout} {hole place : Place} {fs : FileSystem} {e : Item}
  {component : OsString} {components : List OsString} {items : List Item} {ops : List FsOp}

theorem exchange_base (q : OsString) (n : Nat) : exchange q (base n) = List.replicate n q := by
  simp [exchange, base]

theorem prefix_exchange {t : Place} : exchange q t <+: exchange q place ↔ t <+: place :=
  List.prefix_map_iff_of_injective (Equiv.injective _)

theorem exchange_exchange (q : OsString) (place : Place) : exchange q (exchange q place) = place := by
  simp [exchange, Function.comp_def]

theorem exchange_push (hq : component ≠ q) (hmark : component ≠ mark) :
    exchange q (push place component) = push (exchange q place) component := by
  unfold push
  split
  · rfl
  · split
    · exact List.map_dropLast
    · simp [exchange, Equiv.swap_apply_of_ne_of_ne hq hmark]

theorem exchange_foldl (hq : q ∉ components) (hmark : mark ∉ components) :
    exchange q (components.foldl push place) = components.foldl push (exchange q place) := by
  induction components generalizing place with
  | nil => rfl
  | cons component components ih =>
    rw [List.mem_cons, not_or] at hq hmark
    rw [List.foldl_cons, ih hq.2 hmark.2, exchange_push (Ne.symm hq.1) (Ne.symm hmark.1), List.foldl_cons]

theorem chain_resolve (hq : IsName q) (cwd : Place) : (chain q n).resolve cwd = List.replicate n q := by
  rw [resolve, root, chain, if_pos rfl, foldl_push_names, List.nil_append]
  intro name hname
  rwa [List.eq_of_mem_replicate hname]

theorem Layout.Open.above (h : layout.Open n) (hplace : place <+: base n) : layout place = some .dir := by
  by_cases hin : base n <+: place
  · rw [hplace.eq_of_length_le hin.length_le, h.folder]
  · exact h.outside _ hin

theorem Mirrors.above (h : Mirrors q layout hole fs) (hopen : layout.Open n) (haside : Aside q n hole)
    (hplace : place <+: List.replicate n q) : fs.node place = some .dir := by
  have hhole : ¬ hole <+: place := fun hbelow => haside.1 (hbelow.trans hplace)
  have hbase : exchange q place <+: base n := by
    rw [← prefix_exchange (q := q), exchange_exchange, exchange_base]
    exact hplace
  have hkind := h.kind (exchange q place)
  rwa [exchange_exchange, if_neg hhole, hopen.above hbase, kind_eq_dir] at hkind

theorem Mirrors.opens_chain (h : Mirrors q layout hole fs) (hq : IsName q) (hopen : layout.Open n)
    (haside : Aside q n hole) : fs.Opens (chain q n) := by
  constructor
  · intro c hc
    rw [List.eq_of_mem_replicate hc]
    exact hq.no_nul
  · intro place hplace
    obtain ⟨front, -, hfront, rfl⟩ := mem_steps_iff.mp hplace
    have hnames : ∀ name ∈ front, IsName name := by
      intro name hname
      rwa [List.eq_of_mem_replicate (hfront.subset hname)]
    rw [root, chain, if_pos rfl, foldl_push_names hnames, List.nil_append]
    exact h.above hopen haside hfront

theorem Mirrors.start (h : Mirrors q layout hole fs) (hopen : layout.Open n) (haside : Aside q n hole)
    (path : PathBuf) : fs.node (exchange q (path.root (base n))) = some .dir := by
  apply h.above hopen haside
  unfold root
  split
  · exact List.nil_prefix
  · exact (exchange_base q n).symm ▸ List.prefix_rfl

theorem chain_joinPath (hq : IsName q) (hsplit : mark ∉ e.path.components) (hfresh : q ∉ e.path.components)
    (cwd : Place) : ((chain q n).joinPath e.path).resolve cwd = exchange q (e.path.resolve (base n)) := by
  rw [PathBuf.resolve, PathBuf.resolve, exchange_foldl hfresh hsplit]
  cases habs : e.path.absolute with
  | true => simp [joinPath, root, habs, exchange]
  | false =>
    rw [← PathBuf.resolve, resolve_joinPath habs, chain_resolve hq]
    simp [root, habs, exchange_base]

section Makeable

variable (h : Mirrors q layout hole fs) (hq : IsName q) (hopen : layout.Open n) (haside : Aside q n hole)
  (hsplit : mark ∉ e.path.components) (hfresh : q ∉ e.path.components) (haccepts : Accepts n layout e)
  (hhole : ∀ place ∈ steps (e.path.root (base n)) e.path.components.dropLast, ¬ hole <+: exchange q place)

include h hsplit hfresh haccepts hhole

theorem Mirrors.walks (hplace : place ∈ steps (exchange q (e.path.root (base n))) e.path.components.dropLast) :
    fs.node place = some .dir := by
  obtain ⟨front, hne, hfront, rfl⟩ := mem_steps_iff.mp hplace
  have hsub := (hfront.trans (List.dropLast_prefix _)).subset
  rw [← exchange_foldl (fun hmem => hfresh (hsub hmem)) (fun hmem => hsplit (hsub hmem)), ← kind_eq_dir]
  have hstep : front.foldl push (e.path.root (base n)) ∈
      steps (e.path.root (base n)) e.path.components.dropLast := mem_steps_iff.mpr ⟨front, hne, hfront, rfl⟩
  rw [h.kind, if_neg (hhole _ hstep), (haccepts.walks _ hstep).1]

include hopen haside in
theorem Mirrors.parent : fs.node (exchange q (e.path.resolve (base n))).dropLast = some .dir := by
  obtain ⟨name, -, hlast⟩ := resolve_named haccepts.named (base n)
  rw [hlast, exchange, ← List.map_dropLast, List.dropLast_concat]
  by_cases hnil : e.path.components.dropLast = []
  · rw [hnil, List.foldl_nil]
    exact h.start hopen haside e.path
  · apply h.walks hsplit hfresh haccepts hhole
    rw [← exchange, exchange_foldl (fun hmem => hfresh (List.dropLast_subset _ hmem))
      (fun hmem => hsplit (List.dropLast_subset _ hmem))]
    exact mem_steps_iff.mpr ⟨_, hnil, List.prefix_rfl, rfl⟩

include hq hopen haside in
theorem Mirrors.makeable (hfree : fs.kind (exchange q (e.path.resolve (base n))) = none ∨
      e.kind = .file ∧ fs.kind (exchange q (e.path.resolve (base n))) = some .file) :
    fs.Makeable (chain q n) e := by
  have hresolve := @chain_joinPath q n e hq hsplit hfresh fs.cwd
  have hwalks := fun place => @Mirrors.walks q n layout hole place fs e h hsplit hfresh haccepts hhole
  have hne : e.path.components ≠ [] := by
    intro hnil
    obtain ⟨⟨name, hname, -⟩, -⟩ := haccepts.named
    simp [hnil] at hname
  refine ⟨?_, fun hfile => ?_, ?_, ?_⟩
  · cases habs : e.path.absolute with
    | true =>
      rw [joinPath, if_pos habs]
      refine ⟨haccepts.named, fun place hplace => hwalks place ?_⟩
      simpa [root, habs, exchange] using hplace
    | false =>
      refine (leads_joinPath habs hne).mpr ⟨h.opens_chain hq hopen haside, haccepts.named, fun place hplace =>
        hwalks place ?_⟩
      rw [chain_resolve hq] at hplace
      simpa [root, habs, exchange_base] using hplace
  · unfold joinPath
    split
    · exact haccepts.bare hfile
    · simp [haccepts.bare hfile, hne]
  · rw [hresolve, kind_eq_dir]
    exact h.parent hopen haside hsplit hfresh haccepts hhole
  · rw [hresolve]
    exact hfree

end Makeable

theorem aside_mark (hq : IsName q) (hn : 0 < n) : Aside q n [mark] := by
  obtain ⟨n, rfl⟩ := Nat.exists_eq_succ_of_ne_zero hn.ne'
  have hne : q ≠ mark := by
    rintro rfl
    exact hq.no_slash (by simp [mark])
  constructor
  · simp [List.replicate_succ, List.cons_prefix_cons, hne.symm]
  · simp [List.replicate_succ, List.cons_prefix_cons, hne]

theorem aside_exchange (hsplit : mark ∉ e.path.components) (haccepts : Accepts n layout e)
    (hout : ¬ base n <+: e.path.resolve (base n)) : Aside q n (exchange q (e.path.resolve (base n))) := by
  rw [Aside, ← exchange_base, prefix_exchange, prefix_exchange]
  refine ⟨fun habove => ?_, hout⟩
  obtain ⟨name, hname, hlast⟩ := resolve_named haccepts.named (base n)
  have hmem : name ∈ base n := habove.subset (by simp [hlast])
  exact hsplit (List.eq_of_mem_replicate hmem ▸ hname)

theorem Aside.not_above (h : Aside q n hole) (hsplit : mark ∉ e.path.components)
    (hin : base n <+: e.path.resolve (base n))
    (hplace : place ∈ steps (e.path.root (base n)) e.path.components.dropLast) :
    ¬ hole <+: exchange q place := by
  obtain ⟨front, -, hfront, rfl⟩ := mem_steps_iff.mp hplace
  obtain ⟨back, hback⟩ := hfront.trans (List.dropLast_prefix _)
  intro hbelow
  by_cases hinside : base n <+: front.foldl push (e.path.root (base n))
  · have hfolder := prefix_exchange (q := q).mpr hinside
    rw [exchange_base] at hfolder
    rcases List.prefix_or_prefix_of_prefix hbelow hfolder with habove | habove
    · exact h.1 habove
    · exact h.2 habove
  · have hback_split : mark ∉ back := fun hmem => hsplit (hback ▸ List.mem_append_right _ hmem)
    apply outside_foldl hback_split hinside
    rw [← List.foldl_append, hback]
    exact hin

theorem Mirrors.after (h : Mirrors q layout hole fs) (hq : IsName q) (hsplit : mark ∉ e.path.components)
    (hfresh : q ∉ e.path.components) (hhole : ¬ hole <+: exchange q (e.path.resolve (base n)))
    {fs' : FileSystem} (hafter : fs.After (chain q n) e fs') :
    Mirrors q (Function.update layout (e.path.resolve (base n)) (some e.kind)) hole fs' := by
  refine ⟨hafter.cwd.trans h.cwd, fun place => ?_⟩
  rw [hafter.kind, chain_joinPath hq hsplit hfresh]
  by_cases heq : place = e.path.resolve (base n)
  · rw [heq, Function.update_self, Function.update_self, if_neg hhole]
  · have hne : exchange q place ≠ exchange q (e.path.resolve (base n)) := by
      intro hsame
      have hback := congrArg (exchange q) hsame
      rw [exchange_exchange, exchange_exchange] at hback
      exact heq hback
    rw [Function.update_of_ne hne, Function.update_of_ne heq, h.kind]

theorem Layout.Open.update (h : layout.Open n) (hin : base n <+: place) (hnone : layout place = none)
    (k : Kind) : Layout.Open (Function.update layout place (some k)) n := by
  constructor
  · intro q hq
    rw [Function.update_of_ne, h.outside q hq]
    rintro rfl
    exact hq hin
  · rw [Function.update_of_ne, h.folder]
    rintro rfl
    rw [h.folder] at hnone
    cases hnone

theorem Stays.next {folder : PathBuf} {data : List (List UInt8)} (hdata : e.kind = .dir → data = [])
    (h : Stays fs folder (e.make folder :: (data.map (.writeAll (folder.joinPath e.path)) ++ ops)))
    (hmake : fs.Makeable folder e) :
    folder.resolve fs.cwd <+: (folder.joinPath e.path).resolve fs.cwd ∧
      fs.kind ((folder.joinPath e.path).resolve fs.cwd) = none ∧
        ∃ fs', fs.After folder e fs' ∧ Stays fs' folder ops := by
  obtain ⟨⟨hinside, hapart⟩, hnew⟩ := h
  rcases made_make fs folder hdata ops with ⟨hnot, -⟩ | ⟨fs', hafter, hexecuted, hmade⟩
  · exact absurd hmake hnot
  rw [hmade] at hapart hnew
  rw [List.nodup_cons] at hapart
  rw [List.forall_mem_cons] at hnew
  have hself := hinside (e.make folder) ((hexecuted _).mpr (Or.inl List.mem_cons_self))
  rw [path_of_mem data List.mem_cons_self] at hself
  refine ⟨hself, hnew.1, fs', hafter, ⟨fun op hop => ?_, hapart.2⟩, fun place hplace => ?_⟩
  · rw [hafter.cwd]
    exact hinside op ((hexecuted op).mpr (Or.inr hop))
  · rw [hafter.kind, Function.update_of_ne, hnew.2 place hplace]
    rintro rfl
    exact hapart.1 hplace

/-- By induction on the items. An item outside of the folder is made where the hole is. -/
theorem contained_of_stays (hq : IsName q) (hn : 0 < n)
    (hsplit : ∀ e ∈ items, mark ∉ e.path.components) (hfresh : ∀ e ∈ items, q ∉ e.path.components)
    (hmakes : Makes (chain q n) items ops) (hopen : layout.Open n)
    (h : ∀ hole, Aside q n hole → ∃ fs, Mirrors q layout hole fs ∧ Stays fs (chain q n) ops) :
    Contained n layout items := by
  induction hmakes generalizing layout with
  | nil => trivial
  | @cons e data items ops hdata _ ih =>
    rw [List.forall_mem_cons] at hsplit hfresh
    intro haccepts
    have hin : base n <+: e.path.resolve (base n) := by
      by_contra hout
      have haside : Aside q n _ := aside_exchange hsplit.1 haccepts hout
      obtain ⟨fs, hmirrors, hstays⟩ := h _ haside
      have hmake : fs.Makeable (chain q n) e := by
        apply hmirrors.makeable hq hopen haside hsplit.1 hfresh.1 haccepts
        · intro place hplace
          rw [prefix_exchange]
          exact (haccepts.walks place hplace).2
        · exact Or.inl (by rw [hmirrors.kind, if_pos List.prefix_rfl])
      have hinside := (hstays.next hdata hmake).1
      rw [chain_resolve hq, chain_joinPath hq hsplit.1 hfresh.1, ← exchange_base, prefix_exchange] at hinside
      exact hout hinside
    -- What is made in the folder is made with each hole.
    have hstep : ∀ hole, Aside q n hole → layout (e.path.resolve (base n)) = none ∧ ∃ fs,
        Mirrors q (Function.update layout (e.path.resolve (base n)) (some e.kind)) hole fs ∧
          Stays fs (chain q n) ops := by
      intro hole haside
      obtain ⟨fs, hmirrors, hstays⟩ := h hole haside
      have hhole : ¬ hole <+: exchange q (e.path.resolve (base n)) := by
        have hfolder := prefix_exchange (q := q).mpr hin
        rw [exchange_base] at hfolder
        intro habove
        rcases List.prefix_or_prefix_of_prefix habove hfolder with habove | habove
        · exact haside.1 habove
        · exact haside.2 habove
      have hkind := hmirrors.kind (e.path.resolve (base n))
      rw [if_neg hhole] at hkind
      have hmake : fs.Makeable (chain q n) e := by
        apply hmirrors.makeable hq hopen haside hsplit.1 hfresh.1 haccepts
        · exact fun place hplace => haside.not_above hsplit.1 hin hplace
        · rw [hkind]
          exact haccepts.free hin
      obtain ⟨-, hnone, fs', hafter, hstays'⟩ := hstays.next hdata hmake
      rw [chain_joinPath hq hsplit.1 hfresh.1, hkind] at hnone
      exact ⟨hnone, fs', hmirrors.after hq hsplit.1 hfresh.1 hhole hafter, hstays'⟩
    have hnone := (hstep _ (aside_mark hq hn)).1
    exact ⟨hin, hnone, ih hsplit.2 hfresh.2 (hopen.update hin hnone e.kind) fun hole haside =>
      (hstep hole haside).2⟩

end Exchange

/-! ## Replacing a folder -/

section Replace

open PathBuf FileSystem

variable {n : Nat} {folder : PathBuf} {fs fs₁ : FileSystem} {items : List Item} {ops : List FsOp}

theorem clear_steps (hclear : fs.execAll [.removeDirAll folder, .createDir folder] = some fs₁) :
    ∃ fs₀, fs.exec (.removeDirAll folder) = some fs₀ ∧ fs₀.exec (.createDir folder) = some fs₁ ∧
      fs₀ = { fs with node := fun q => if folder.resolve fs.cwd <+: q then none else fs.node q } := by
  simp only [execAll, Option.bind_eq_bind, Option.bind_eq_some_iff] at hclear
  obtain ⟨fs₀, h₀, fs₂, h₂, hclear⟩ := hclear
  obtain rfl := Option.some.inj hclear
  refine ⟨fs₀, h₀, h₂, ?_⟩
  obtain ⟨-, h₀⟩ := exec_removeDirAll_ok h₀
  unfold FileSystem.removeDirAll at h₀
  split at h₀
  · exact (Option.some.inj h₀).symm
  · cases h₀

theorem Rooted.clear (h : fs.Rooted)
    (hclear : fs.execAll [.removeDirAll folder, .createDir folder] = some fs₁) : fs₁.Rooted := by
  obtain ⟨fs₀, -, h₂, hfs₀⟩ := clear_steps hclear
  obtain ⟨hnone, hparent, rfl⟩ := createDir_iff.mp (exec_createDir_ok h₂).2
  refine Rooted.set (fun q hq => ?_) (by simp [hnone]) hparent
  rw [hfs₀] at hq ⊢
  simp only at hq ⊢
  split at hq
  · cases hq
  · rename_i hout
    rw [if_neg fun hin => hout (hin.trans (List.dropLast_prefix q)), h q hq]

theorem clear_outside (hclear : fs.execAll [.removeDirAll folder, .createDir folder] = some fs₁)
    {q : Place} (hq : ¬ folder.resolve fs.cwd <+: q) : fs₁.node q = fs.node q := by
  obtain ⟨fs₀, -, h₂, rfl⟩ := clear_steps hclear
  obtain rfl := createDir_ok (exec_createDir_ok h₂).2
  rw [set_node_ne]
  · exact if_neg hq
  · rintro rfl
    exact hq List.prefix_rfl

theorem executed_clear (hclear : fs.execAll [.removeDirAll folder, .createDir folder] = some fs₁) :
    fs.executed (.removeDirAll folder :: .createDir folder :: ops) =
      .removeDirAll folder :: .createDir folder :: fs₁.executed ops := by
  obtain ⟨fs₀, h₀, h₂, -⟩ := clear_steps hclear
  simp only [executed, h₀, h₂]

theorem executed_not_clear (h : fs.execAll [.removeDirAll folder, .createDir folder] = none) :
    fs.executed (.removeDirAll folder :: .createDir folder :: ops) = [] ∨
      fs.executed (.removeDirAll folder :: .createDir folder :: ops) = [.removeDirAll folder] := by
  simp only [execAll, Option.bind_eq_bind] at h
  cases h₀ : fs.exec (.removeDirAll folder) with
  | none => exact Or.inl (by simp only [executed, h₀])
  | some fs₀ =>
    cases h₂ : fs₀.exec (.createDir folder) with
    | none => exact Or.inr (by simp only [executed, h₀, h₂])
    | some fs₂ => simp [h₀, h₂] at h

theorem made_clear (hclear : fs.execAll [.removeDirAll folder, .createDir folder] = some fs₁) :
    fs.made (.removeDirAll folder :: .createDir folder :: ops) = folder.resolve fs.cwd :: fs₁.made ops := by
  obtain ⟨hcwd, -, -⟩ := Forest.execAll_clear hclear
  rw [made, executed_clear hclear, made, hcwd]
  rfl

theorem agrees_clear (hrooted : fs.Rooted)
    (hclear : fs.execAll [.removeDirAll folder, .createDir folder] = some fs₁) :
    Agrees n (emptyLayout n) folder fs₁ := by
  obtain ⟨hcwd, -, hnode⟩ := Forest.execAll_clear hclear
  refine ⟨Rooted.clear hrooted hclear, fun q hq => if_neg hq, fun names => ?_, ?_⟩
  · rw [hcwd, kind, hnode, emptyLayout, if_pos (List.prefix_append _ _)]
    by_cases hnil : names = []
    · simp [hnil, Node.kind]
    · simp [hnil]
  · rw [emptyLayout, if_pos List.prefix_rfl, if_pos rfl]

theorem Stays.confined (hclear : fs.execAll [.removeDirAll folder, .createDir folder] = some fs₁)
    (h : Stays fs₁ folder ops) : fs.Confined folder (.removeDirAll folder :: .createDir folder :: ops) := by
  obtain ⟨hcwd, -, hnode⟩ := Forest.execAll_clear hclear
  obtain ⟨⟨hinside, hapart⟩, hnew⟩ := h
  constructor
  · rw [executed_clear hclear]
    intro op hop
    rcases List.mem_cons.mp hop with rfl | hop
    · exact List.prefix_rfl
    rcases List.mem_cons.mp hop with rfl | hop
    · exact List.prefix_rfl
    · rw [← hcwd]
      exact hinside op hop
  · rw [made_clear hclear, List.nodup_cons]
    refine ⟨fun hmem => ?_, hapart⟩
    have hself := hnode []
    have hnone := hnew _ hmem
    rw [List.append_nil, if_pos rfl] at hself
    simp [kind, hself] at hnone

theorem Confined.stays (hclear : fs.execAll [.removeDirAll folder, .createDir folder] = some fs₁)
    (h : fs.Confined folder (.removeDirAll folder :: .createDir folder :: ops)) : Stays fs₁ folder ops := by
  obtain ⟨hcwd, -, hnode⟩ := Forest.execAll_clear hclear
  obtain ⟨hinside, hapart⟩ := h
  rw [executed_clear hclear] at hinside
  rw [made_clear hclear, List.nodup_cons] at hapart
  have hrest : ∀ op ∈ fs₁.executed ops, folder.resolve fs₁.cwd <+: op.path.resolve fs₁.cwd := by
    rw [hcwd]
    exact fun op hop => hinside op (List.mem_cons_of_mem _ (List.mem_cons_of_mem _ hop))
  refine ⟨⟨hrest, hapart.2⟩, fun place hplace => ?_⟩
  obtain ⟨path, hmade, rfl⟩ := List.mem_map.mp hplace
  obtain ⟨op, hop, hpath⟩ := List.mem_filterMap.mp hmade
  have heq : op.path = path := by
    cases op <;> simp_all [FsOp.made, FsOp.path]
  have hin := hrest op hop
  rw [heq, hcwd] at hin
  obtain ⟨names, hnames⟩ := hin
  rw [hcwd] at hplace ⊢
  rw [kind, ← hnames, hnode, if_neg, Option.map_none]
  rintro rfl
  rw [List.append_nil] at hnames
  exact hapart.1 (hnames ▸ hplace)

/-- An empty folder, a hole, and directories everywhere else. -/
def holed (folder hole : Place) : FileSystem where
  cwd := []
  node place :=
    if folder <+: place then if place = folder then some .dir else none
    else if hole <+: place then none else some .dir

variable {q : OsString} {hole : Place}

theorem holed_rooted (hn : 0 < n) (haside : Aside q n hole) : (holed (List.replicate n q) hole).Rooted := by
  intro place hplace
  simp only [holed] at hplace ⊢
  split at hplace
  · split at hplace
    · rename_i hself
      have hlength : (List.replicate n q).dropLast.length < n := by simp [hn]
      rw [hself, if_neg, if_neg]
      · exact fun habove => haside.1 (habove.trans (List.dropLast_prefix _))
      · intro hbelow
        have hle := hbelow.length_le
        rw [List.length_replicate] at hle
        omega
    · cases hplace
  · split at hplace
    · cases hplace
    · rename_i hout hhole
      rw [if_neg, if_neg]
      · exact fun habove => hhole (habove.trans (List.dropLast_prefix _))
      · exact fun hin => hout (hin.trans (List.dropLast_prefix _))

theorem holed_above (haside : Aside q n hole) {place : Place} (hplace : place <+: List.replicate n q) :
    (holed (List.replicate n q) hole).node place = some .dir := by
  simp only [holed]
  split
  · rename_i hin
    rw [if_pos (hplace.eq_of_length_le hin.length_le)]
  · rw [if_neg fun habove => haside.1 (habove.trans hplace)]

theorem chain_way (hq : IsName q) {components : List OsString} (h : components <+: List.replicate n q)
    {place : Place} (hplace : place ∈ steps [] components) : place <+: components := by
  obtain ⟨front, -, hfront, rfl⟩ := mem_steps_iff.mp hplace
  rw [foldl_push_names, List.nil_append]
  · exact hfront
  · intro name hname
    rwa [List.eq_of_mem_replicate (h.subset (hfront.subset hname))]

theorem chain_clearable (hq : IsName q) (hn : 0 < n) : (chain q n).Clearable [] := by
  obtain ⟨n, rfl⟩ := Nat.exists_eq_succ_of_ne_zero hn.ne'
  refine ⟨⟨⟨q, ?_, hq.ne_dot, hq.ne_dots⟩, fun c hc => ?_⟩, fun place hplace hin => ?_⟩
  · simp [chain, List.getLast?_replicate]
  · rw [List.eq_of_mem_replicate hc]
    exact hq.no_nul
  · have hle := (chain_way hq (List.dropLast_prefix _) hplace).length_le
    have hle' := hin.length_le
    rw [chain_resolve hq, List.length_replicate] at hle'
    rw [List.length_dropLast, List.length_replicate] at hle
    omega

theorem holed_clear (hq : IsName q) (hn : 0 < n) (haside : Aside q n hole) :
    ∃ fs₁, (holed (List.replicate n q) hole).execAll [.removeDirAll (chain q n), .createDir (chain q n)] =
      some fs₁ := by
  apply (Forest.clear_iff (holed_rooted hn haside) ?_ ?_).mpr (chain_clearable hq hn)
  · refine ⟨fun c hc => ?_, fun place hplace => ?_⟩
    · rw [List.eq_of_mem_replicate hc]
      exact hq.no_nul
    · exact holed_above haside (chain_way hq List.prefix_rfl hplace)
  · rw [chain_resolve hq]
    exact holed_above haside List.prefix_rfl

theorem holed_mirrors (hq : IsName q) (haside : Aside q n hole)
    (hclear : (holed (List.replicate n q) hole).execAll [.removeDirAll (chain q n), .createDir (chain q n)] =
      some fs₁) : Mirrors q (emptyLayout n) hole fs₁ := by
  obtain ⟨hcwd, -, hnode⟩ := Forest.execAll_clear hclear
  refine ⟨hcwd, fun place => ?_⟩
  have hin : exchange q (base n) <+: exchange q place ↔ base n <+: place := prefix_exchange
  rw [exchange_base] at hin
  by_cases hfolder : base n <+: place
  · have hhole : ¬ hole <+: exchange q place := by
      intro habove
      rcases List.prefix_or_prefix_of_prefix habove (hin.mpr hfolder) with habove | habove
      · exact haside.1 habove
      · exact haside.2 habove
    obtain ⟨names, rfl⟩ := hfolder
    have hplace : exchange q (base n ++ names) = (chain q n).resolve [] ++ exchange q names := by
      rw [chain_resolve hq, ← exchange_base, exchange, List.map_append]
      rfl
    rw [if_neg hhole, emptyLayout, if_pos (List.prefix_append _ _), kind, hplace]
    have hfs := hnode (exchange q names)
    rw [show (holed (List.replicate n q) hole).cwd = [] from rfl] at hfs
    rw [hfs]
    by_cases hnil : names = []
    · simp [hnil, exchange, Node.kind]
    · simp [hnil, exchange]
  · have hout : ¬ (chain q n).resolve (holed (List.replicate n q) hole).cwd <+: exchange q place := by
      rw [chain_resolve hq]
      exact fun h => hfolder (hin.mp h)
    rw [kind, clear_outside hclear hout, emptyLayout, if_neg hfolder]
    simp only [holed]
    rw [if_neg fun h => hfolder (hin.mp h)]
    split <;> rfl

/-- Items stay in every folder of every file system exactly when they are contained, however deep the
folder is. -/
theorem confined_iff {ops : PathBuf → List FsOp} (hsplit : ∀ e ∈ items, e.path.Split)
    (hmakes : ∀ folder, Makes folder items (ops folder)) :
    (∀ (folder : PathBuf) (fs : FileSystem), fs.Rooted →
      fs.Confined folder (.removeDirAll folder :: .createDir folder :: ops folder)) ↔
    ∀ n, Contained (n + 1) (emptyLayout (n + 1)) items := by
  have hmark : ∀ e ∈ items, mark ∉ e.path.components :=
    fun e he hmem => hsplit e he mark hmem (by simp [mark])
  constructor
  · intro h n
    obtain ⟨q, hq, hfresh⟩ := exists_name_notMem (items.flatMap fun e => e.path.components)
    refine contained_of_stays hq n.succ_pos hmark (fun e he hmem => hfresh ?_) (hmakes _) ?_ ?_
    · exact List.mem_flatMap.mpr ⟨e, he, hmem⟩
    · exact ⟨fun place hplace => if_neg hplace, by simp [emptyLayout]⟩
    · intro hole haside
      obtain ⟨fs₁, hclear⟩ := holed_clear hq n.succ_pos haside
      exact ⟨fs₁, holed_mirrors hq haside hclear,
        Confined.stays hclear (h _ _ (holed_rooted n.succ_pos haside))⟩
  · intro h folder fs hrooted
    cases hclear : fs.execAll [.removeDirAll folder, .createDir folder] with
    | none =>
      rcases @executed_not_clear folder fs (ops folder) hclear with hops | hops
      · exact ⟨by simp [hops], by simp [made, hops]⟩
      · have hmade : fs.made (.removeDirAll folder :: .createDir folder :: ops folder) = [] := by
          rw [made, hops]
          rfl
        exact ⟨by simp [hops, FsOp.path], by simp [hmade]⟩
    | some fs₁ =>
      have hlen : ∀ e ∈ items, e.path.components.length ≤
          (items.map fun e => e.path.components.length).sum + 1 := by
        intro e he
        have hmem : e.path.components.length ∈ items.map fun e => e.path.components.length :=
          List.mem_map.mpr ⟨e, he, rfl⟩
        have hle := List.single_le_sum (fun _ _ => Nat.zero_le _) _ hmem
        omega
      exact Stays.confined hclear ((h _).stays (Nat.succ_pos _) hmark hlen (hmakes folder)
        (agrees_clear hrooted hclear))

theorem confined_clear (hrooted : fs.Rooted) : fs.Confined folder [.removeDirAll folder, .createDir folder] :=
  (@confined_iff [] (fun _ => []) (by simp) fun _ => .nil).mpr (fun _ => trivial) folder fs hrooted

end Replace

end DasProtokoll
