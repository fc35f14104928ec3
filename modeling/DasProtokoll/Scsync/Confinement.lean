import DasProtokoll.Lib.Confined
import DasProtokoll.Scsync.Verify

/-!
# Where the writer writes

The names of children are joined to the folder as they come. The writer stays in
every folder, and makes nothing twice, when the names are contained.
-/

namespace DasProtokoll.Scsync

open DasProtokoll

/-- Items, and whether all blocks are there that the writer needs to get to their end. -/
structure Listing where
  items : List Item
  complete : Bool

def Listing.append (l rest : Listing) : Listing :=
  if l.complete then { items := l.items ++ rest.items, complete := rest.complete } else l

section Sealing

variable [Sealing]

namespace BlockDb

def hasLeaf (db : BlockDb) (r : BlockRef) : Bool :=
  match db.getLeaf r with
  | .ok _ => true
  | _ => false

/-- A child, and what is below it. `list` lists a subdirectory. -/
def listChild (db : BlockDb) (list : PathBuf → Dir → Listing) (path : PathBuf) (c : Child) : Listing :=
  let path := path.join (.ofString c.name)
  match c.type with
  | .Leaf => { items := [{ path, kind := .file }], complete := db.hasLeaf c.blockref }
  | .Directory =>
    match db.getDir c.blockref with
    | .ok dir =>
      let below := list path dir
      { items := { path, kind := .dir } :: below.items, complete := below.complete }
    | _ => { items := [{ path, kind := .dir }], complete := false }
  | .FileMeta =>
    match db.getMeta c.blockref with
    | .ok meta_ => { items := [{ path, kind := .file }], complete := meta_.blocks.all db.hasLeaf }
    | _ => { items := [{ path, kind := .file }], complete := false }

def listChildren (db : BlockDb) (list : PathBuf → Dir → Listing) (path : PathBuf) : List Child → Listing
  | [] => { items := [], complete := true }
  | c :: children => (db.listChild list path c).append (db.listChildren list path children)

/-- The files and directories below a directory in the order of the writer, down to some depth, up to
the first block that is not there. -/
def listing (db : BlockDb) : Nat → PathBuf → Dir → Listing
  | 0, _, _ => { items := [], complete := false }
  | fuel + 1, path, dir => db.listChildren (db.listing fuel) path dir.children

/-- The path of the root, as far as the peer knows. -/
def here : PathBuf where
  absolute := false
  components := []

/-- However deep the folder is, all that the system makes gets a place of its own in it. -/
def Harmless (db : BlockDb) (dir : Dir) : Prop :=
  ∀ fuel n, Contained (n + 1) (emptyLayout (n + 1)) (db.listing fuel here dir).items

end BlockDb

variable {db : BlockDb} {folder at_ path : PathBuf} {write : PathBuf → Dir → Plan Unit}
  {list : PathBuf → Dir → Listing} {c : Child} {dir : Dir} {children : List Child} {fuel : Nat}

/-! ## The writer makes what is listed -/

/-- The plan makes the items of the listing, and comes to its end when the listing is complete. -/
structure Follows (folder : PathBuf) (plan : Plan Unit) (l : Listing) : Prop where
  makes : Makes folder l.items plan.ops
  ends : plan.result = .ok () ↔ l.complete = true

/-- What is joined to `at_` is joined to the folder by the path. -/
def Joins (folder path at_ : PathBuf) : Prop := ∀ name, at_.join name = folder.joinPath (path.join name)

omit [Sealing] in
theorem joins_here (folder : PathBuf) : Joins folder BlockDb.here folder := by
  intro name
  rw [PathBuf.join, PathBuf.join, ← PathBuf.joinPath_assoc]
  simp [PathBuf.joinPath, BlockDb.here]

omit [Sealing] in
theorem Joins.join (h : Joins folder path at_) (name : OsString) :
    Joins folder (path.join name) (at_.join name) := by
  intro name'
  rw [h name, PathBuf.join, PathBuf.joinPath_assoc]
  rfl

omit [Sealing] in
theorem follows_append {plan plan' : Plan Unit} {l l' : Listing} (h : Follows folder plan l)
    (h' : Follows folder plan' l') : Follows folder (plan >>= fun _ => plan') (l.append l') := by
  unfold Listing.append
  by_cases hcomplete : l.complete = true
  · rw [if_pos hcomplete, Plan.bind_of_ok (h.ends.mpr hcomplete)]
    exact ⟨h.makes.append h'.makes, h'.ends⟩
  · have hresult : plan.result ≠ .ok () := fun hresult => hcomplete (h.ends.mp hresult)
    have hbind : (plan >>= fun _ => plan').ops = plan.ops ∧ (plan >>= fun _ => plan').result ≠ .ok () := by
      simp only [bind]
      split <;> simp_all
    rw [if_neg hcomplete]
    refine ⟨hbind.1 ▸ h.makes, ?_⟩
    simp [hbind.2, hcomplete]

theorem hasLeaf_iff {r : BlockRef} : db.hasLeaf r = true ↔ ∃ leaf, db.getLeaf r = .ok leaf := by
  unfold BlockDb.hasLeaf
  split <;> simp_all

theorem writeBlocks_writes (db : BlockDb) (path : PathBuf) (blocks : List BlockRef) :
    (∃ data : List Bytes, (db.writeBlocks path blocks).ops = data.map (.writeAll path)) ∧
      ((db.writeBlocks path blocks).result = .ok () ↔ blocks.all db.hasLeaf = true) := by
  induction blocks with
  | nil => exact ⟨⟨[], rfl⟩, by simp [BlockDb.writeBlocks]⟩
  | cons r blocks ih =>
    obtain ⟨⟨data, hdata⟩, hresult⟩ := ih
    rw [List.all_cons, Bool.and_eq_true, hasLeaf_iff, ← hresult, BlockDb.writeBlocks]
    cases hleaf : db.getLeaf r with
    | ok leaf =>
      simp only [Plan.lift_ok_bind, Plan.emit_bind, hdata]
      exact ⟨⟨leaf.data :: data, rfl⟩, by simp⟩
    | panic => exact ⟨⟨[], rfl⟩, by simp [Plan.lift, bind]⟩
    | diverge => exact ⟨⟨[], rfl⟩, by simp [Plan.lift, bind]⟩

section Children

variable (hwrite : ∀ at_ path dir, Joins folder path at_ → Follows folder (write at_ dir) (list path dir))
  (hjoins : Joins folder path at_)

include hwrite hjoins

theorem follows_child : Follows folder (db.writeChild write at_ c) (db.listChild list path c) := by
  unfold BlockDb.writeChild BlockDb.listChild
  rw [hjoins]
  cases c.type with
  | Leaf =>
    simp only [Plan.emit_bind]
    cases hleaf : db.getLeaf c.blockref with
    | ok leaf => exact ⟨makes_file [leaf.data], by simp [hasLeaf_iff, hleaf, Plan.emit]⟩
    | panic => exact ⟨makes_file [], by simp [BlockDb.hasLeaf, hleaf, Plan.lift, bind]⟩
    | diverge => exact ⟨makes_file [], by simp [BlockDb.hasLeaf, hleaf, Plan.lift, bind]⟩
  | Directory =>
    simp only [Plan.emit_bind]
    cases hdir : db.getDir c.blockref with
    | ok dir =>
      obtain ⟨hmakes, hends⟩ := hwrite _ _ dir (hjoins.join (.ofString c.name))
      rw [hjoins] at hmakes hends
      exact ⟨hmakes.dir, hends⟩
    | panic => exact ⟨Makes.nil.dir, by simp [Plan.lift, bind]⟩
    | diverge => exact ⟨Makes.nil.dir, by simp [Plan.lift, bind]⟩
  | FileMeta =>
    simp only [Plan.emit_bind]
    cases hmeta : db.getMeta c.blockref with
    | ok meta_ =>
      obtain ⟨⟨data, hdata⟩, hresult⟩ :=
        writeBlocks_writes db (folder.joinPath (path.join (.ofString c.name))) meta_.blocks
      refine ⟨?_, hresult⟩
      simp only [Plan.lift_ok_bind, hdata]
      exact makes_file data
    | panic => exact ⟨makes_file [], by simp [Plan.lift, bind]⟩
    | diverge => exact ⟨makes_file [], by simp [Plan.lift, bind]⟩

theorem follows_children :
    Follows folder (db.writeChildren write at_ children) (db.listChildren list path children) := by
  induction children with
  | nil => exact ⟨.nil, by simp [BlockDb.writeChildren, BlockDb.listChildren]⟩
  | cons c children ih => exact follows_append (follows_child hwrite hjoins) ih

end Children

theorem writeToDirRec_follows (hjoins : Joins folder path at_) :
    Follows folder (db.writeToDirRec fuel at_ dir) (db.listing fuel path dir) := by
  induction fuel generalizing at_ path dir with
  | zero => exact ⟨.nil, by simp [BlockDb.writeToDirRec, BlockDb.listing, Plan.lift]⟩
  | succ fuel ih => exact follows_children (fun at_ path dir h => ih h) hjoins

/-! ## Paths of the listing -/

omit [Sealing] in
theorem split_append {l l' : Listing} (h : ∀ e ∈ l.items, e.path.Split) (h' : ∀ e ∈ l'.items, e.path.Split) :
    ∀ e ∈ (l.append l').items, e.path.Split := by
  unfold Listing.append
  split
  · exact List.forall_mem_append.mpr ⟨h, h'⟩
  · exact h

theorem split_child (hlist : ∀ path dir, path.Split → ∀ e ∈ (list path dir).items, e.path.Split)
    (hpath : path.Split) : ∀ e ∈ (db.listChild list path c).items, e.path.Split := by
  have hown : (path.join (.ofString c.name)).Split := hpath.joinPath (PathBuf.split_ofOsString _)
  unfold BlockDb.listChild
  cases c.type with
  | Leaf => simpa using hown
  | Directory =>
    cases db.getDir c.blockref with
    | ok dir => exact List.forall_mem_cons.mpr ⟨hown, hlist _ dir hown⟩
    | panic => simpa using hown
    | diverge => simpa using hown
  | FileMeta => cases db.getMeta c.blockref <;> simpa using hown

theorem split_listing (hpath : path.Split) : ∀ e ∈ (db.listing fuel path dir).items, e.path.Split := by
  induction fuel generalizing path dir with
  | zero => simp [BlockDb.listing]
  | succ fuel ih =>
    rw [BlockDb.listing]
    induction dir.children with
    | nil => simp [BlockDb.listChildren]
    | cons c children ihc => exact split_append (split_child (fun path dir h => ih h) hpath) ihc

/-! ## Confinement -/

theorem writeToDir_ops (fuel : Nat) (folder : PathBuf) : (db.writeToDir fuel folder).ops =
    .removeDirAll folder :: .createDir folder :: (Plan.lift (db.getDir db.root) >>= fun dir =>
      db.writeToDirRec fuel folder dir).ops := by
  simp only [BlockDb.writeToDir, Plan.emit_bind]

/-- The writer is confined to every folder of every file system exactly when the tree is harmless. -/
theorem tree_confined_iff (db : BlockDb) :
    (∀ (fuel : Nat) (folder : PathBuf) (fs : FileSystem), fs.Rooted →
      fs.Confined folder (db.writeToDir fuel folder).ops) ↔
    ∀ dir, db.getDir db.root = .ok dir → db.Harmless dir := by
  simp only [writeToDir_ops]
  cases hroot : db.getDir db.root with
  | ok dir =>
    simp only [Plan.lift_ok_bind, Result.ok.injEq, forall_eq', BlockDb.Harmless]
    apply forall_congr'
    intro fuel
    exact confined_iff (split_listing (by simp [PathBuf.Split, BlockDb.here])) fun folder =>
      (writeToDirRec_follows (joins_here folder)).makes
  | panic => simpa [Plan.lift, bind] using fun _ _ => confined_clear
  | diverge => simpa [Plan.lift, bind] using fun _ _ => confined_clear

/-! ## Names without a path -/

/-- The names of the children are names, and no two are the same. -/
structure Plain (dir : Dir) : Prop where
  names : ∀ c ∈ dir.children, IsName (.ofString c.name)
  apart : (dir.children.map Child.name).Nodup

def SubDir (db : BlockDb) (dir sub : Dir) : Prop :=
  ∃ c ∈ dir.children, c.type = .Directory ∧ db.getDir c.blockref = .ok sub

/-- All items are below `at_`, behind one of the names, and none is there twice. -/
structure Below (at_ : Place) (names : List OsString) (items : List Item) : Prop where
  relative : ∀ e ∈ items, e.path.absolute = false
  plain : ∀ e ∈ items, ∀ c ∈ e.path.components, IsName c
  behind : ∀ e ∈ items, ∃ name ∈ names, ∃ way, e.path.components = at_ ++ name :: way
  nodup : (items.map fun e => e.path.components).Nodup

section Below

variable {at_ : Place} {name : OsString} {names names' : List OsString} {items items' : List Item} {k : Kind}

omit [Sealing]

theorem Below.mono (h : Below at_ names items) (hsub : names ⊆ names') : Below at_ names' items := by
  refine ⟨h.relative, h.plain, fun e he => ?_, h.nodup⟩
  obtain ⟨name, hname, hway⟩ := h.behind e he
  exact ⟨name, hsub hname, hway⟩

theorem Below.append (h : Below at_ names items) (h' : Below at_ names' items')
    (hdisjoint : ∀ name ∈ names, name ∉ names') : Below at_ (names ++ names') (items ++ items') := by
  refine ⟨List.forall_mem_append.mpr ⟨h.relative, h'.relative⟩,
    List.forall_mem_append.mpr ⟨h.plain, h'.plain⟩, List.forall_mem_append.mpr
      ⟨(h.mono (List.subset_append_left _ _)).behind, (h'.mono (List.subset_append_right _ _)).behind⟩, ?_⟩
  rw [List.map_append]
  refine h.nodup.append h'.nodup fun place hplace hplace' => ?_
  obtain ⟨e, he, rfl⟩ := List.mem_map.mp hplace
  obtain ⟨e', he', heq⟩ := List.mem_map.mp hplace'
  obtain ⟨name, hname, way, hway⟩ := h.behind e he
  obtain ⟨name', hname', way', hway'⟩ := h'.behind e' he'
  rw [hway, hway'] at heq
  obtain ⟨rfl, -⟩ := List.cons.inj (List.append_cancel_left heq)
  exact hdisjoint _ hname hname'

theorem Below.child (h : Below (at_ ++ [name]) names items) {path : PathBuf}
    (hrel : path.absolute = false) (hpath : path.components = at_ ++ [name])
    (hplain : ∀ c ∈ at_ ++ [name], IsName c) : Below at_ [name] ({ path, kind := k } :: items) := by
  refine ⟨List.forall_mem_cons.mpr ⟨hrel, h.relative⟩, List.forall_mem_cons.mpr ⟨hpath ▸ hplain, h.plain⟩,
    List.forall_mem_cons.mpr ⟨⟨name, by simp, [], hpath⟩, fun e he => ?_⟩, ?_⟩
  · obtain ⟨name', -, way, hway⟩ := h.behind e he
    exact ⟨name, by simp, name' :: way, by simp [hway]⟩
  · rw [List.map_cons, List.nodup_cons]
    refine ⟨fun hmem => ?_, h.nodup⟩
    obtain ⟨e, he, heq⟩ := List.mem_map.mp hmem
    obtain ⟨name', -, way, hway⟩ := h.behind e he
    rw [hway, hpath] at heq
    simp at heq

theorem below_nil : Below at_ names [] := ⟨by simp, by simp, by simp, by simp⟩

end Below

theorem below_child {at_ : Place} (hrel : path.absolute = false) (hpath : path.components = at_)
    (hplain : ∀ n ∈ at_, IsName n) (hname : IsName (.ofString c.name))
    (hlist : ∀ sub path, c.type = .Directory → db.getDir c.blockref = .ok sub → path.absolute = false →
      path.components = at_ ++ [.ofString c.name] →
        ∃ names, Below (at_ ++ [.ofString c.name]) names (list path sub).items) :
    Below at_ [.ofString c.name] (db.listChild list path c).items := by
  have hjoin : (path.join (.ofString c.name)).absolute = false ∧
      (path.join (.ofString c.name)).components = at_ ++ [.ofString c.name] := by
    rw [PathBuf.join_name hname]
    exact ⟨hrel, by rw [hpath]⟩
  have hall : ∀ n ∈ at_ ++ [OsString.ofString c.name], IsName n := by
    rw [List.forall_mem_append]
    exact ⟨hplain, by simpa using hname⟩
  have hone (k : Kind) : Below at_ [.ofString c.name] [{ path := path.join (.ofString c.name), kind := k }] :=
    (@below_nil _ []).child hjoin.1 hjoin.2 hall
  unfold BlockDb.listChild
  cases htype : c.type with
  | Leaf => exact hone .file
  | Directory =>
    cases hdir : db.getDir c.blockref with
    | ok sub =>
      obtain ⟨names, hbelow⟩ := hlist sub _ htype hdir hjoin.1 hjoin.2
      exact hbelow.child hjoin.1 hjoin.2 hall
    | panic => exact hone .dir
    | diverge => exact hone .dir
  | FileMeta => cases db.getMeta c.blockref <;> exact hone .file

theorem below_listing (h : ∀ d, Relation.ReflTransGen (SubDir db) dir d → Plain d) {at_ : Place}
    (hrel : path.absolute = false) (hpath : path.components = at_) (hplain : ∀ n ∈ at_, IsName n) :
    Below at_ (dir.children.map fun c => .ofString c.name) (db.listing fuel path dir).items := by
  induction fuel generalizing path dir at_ with
  | zero => exact below_nil
  | succ fuel ih =>
    obtain ⟨hnames, hapart⟩ := h dir .refl
    have hsub : ∀ c ∈ dir.children, ∀ sub, c.type = .Directory → db.getDir c.blockref = .ok sub →
        ∀ d, Relation.ReflTransGen (SubDir db) sub d → Plain d :=
      fun c hc sub htype hdir d hd => h d (.head ⟨c, hc, htype, hdir⟩ hd)
    rw [BlockDb.listing]
    generalize dir.children = children at hnames hapart hsub
    induction children with
    | nil => exact below_nil
    | cons c children ihc =>
      rw [List.forall_mem_cons] at hnames hsub
      rw [List.map_cons, List.nodup_cons] at hapart
      have hall : ∀ n ∈ at_ ++ [OsString.ofString c.name], IsName n := by
        rw [List.forall_mem_append]
        exact ⟨hplain, by simpa using hnames.1⟩
      have hchild : Below at_ [.ofString c.name] (db.listChild (db.listing fuel) path c).items :=
        below_child hrel hpath hplain hnames.1 fun sub path htype hdir hrel hpath =>
          ⟨_, ih (hsub.1 sub htype hdir) hrel hpath hall⟩
      rw [BlockDb.listChildren, Listing.append]
      split
      · refine hchild.append (ihc hnames.2 hapart.2 hsub.2) ?_
        rw [List.forall_mem_singleton]
        intro hmem
        obtain ⟨d, hd, heq⟩ := List.mem_map.mp hmem
        exact hapart.1 (List.mem_map.mpr ⟨d, hd, OsString.ofString_injective heq⟩)
      · exact hchild.mono (by simp)

/-- A tree is harmless when the names in each of its directories are names, and no two the same. -/
theorem harmless_of_plain (h : ∀ d, Relation.ReflTransGen (SubDir db) dir d → Plain d) : db.Harmless dir := by
  intro fuel n
  have hbelow := @below_listing _ db BlockDb.here dir fuel h [] rfl rfl (by simp)
  refine contained_of_names hbelow.relative hbelow.plain hbelow.nodup fun e he => ?_
  obtain ⟨name, -, way, hway⟩ := hbelow.behind e he
  rw [emptyLayout, if_pos (List.prefix_append _ _), if_neg]
  simp [hway]

/-! ## A name that leads out of the folder -/

def escaping : Dir where
  children := [
    { name := "../x", type := .Leaf, blockref := leafOf },
    { name := "y", type := .Leaf, blockref := leafOf },
    { name := "y", type := .Leaf, blockref := leafOf }]

def escapingBlock : Full := { id := idOf 0, data := (toBlock escaping noKey noKey).data }

def escapingDb : BlockDb :=
  let leaves := Finmap.singleton (idOf 2) (.Full leafBlock)
  BlockDb.new rootOf (leaves.insert (idOf 0) (.Full escapingBlock))

def home : PathBuf := PathBuf.ofOsString (.ofString "/home")

/-- A file system with an empty folder. -/
def homeFs : FileSystem where
  cwd := []
  node q := if q = [] ∨ q = [.ofString "home"] then some .dir else none

/-- What the writer does, once it has the blocks. -/
def escapingOps : List FsOp :=
  let outside := home.join (.ofString "../x")
  let inside := home.join (.ofString "y")
  [.removeDirAll home, .createDir home, .create outside, .writeAll outside [7], .create inside,
    .writeAll inside [7], .create inside, .writeAll inside [7]]

theorem escapingDb_root : escapingDb.getDir escapingDb.root = .ok escaping := by
  refine getDir_ok (Finmap.lookup_insert _) ?_
  exact (fromFull_congr rfl noKey).trans (fromFull_toBlock escaping noKey noKey)

theorem escapingDb_leaf : escapingDb.getLeaf leafOf = .ok { data := [7] } := by
  have hlookup : escapingDb.lookup leafOf.blockid = some (.Full leafBlock) := by
    rw [BlockDb.lookup, escapingDb, BlockDb.new, Finmap.lookup_insert_of_ne _ (by decide)]
    exact Finmap.lookup_singleton_eq
  have hdec : Leaf.fromFull leafBlock leafOf.key = some { data := [7] } := leafBlock_decodes
  simp [BlockDb.getLeaf, BlockDb.getFull, BlockDb.get, hlookup, Block.full, hdec]

theorem escapingDb_writeChild (folder : PathBuf) (name : String) :
    escapingDb.writeChild write folder { name, type := .Leaf, blockref := leafOf } =
      { ops := [.create (folder.join (.ofString name)), .writeAll (folder.join (.ofString name)) [7]]
        result := .ok () } := by
  simp only [BlockDb.writeChild, escapingDb_leaf, Plan.emit_bind, Plan.lift_ok_bind]
  rfl

theorem escapingDb_ops : escapingDb.writeToDir 1 home = { ops := escapingOps, result := .ok () } := by
  simp only [BlockDb.writeToDir, escapingDb_root, Plan.emit_bind, Plan.lift_ok_bind,
    BlockDb.writeToDirRec, escaping, BlockDb.writeChildren, escapingDb_writeChild]
  rfl

omit [Sealing] in
theorem homeFs_rooted : homeFs.Rooted := by
  intro q hq
  simp only [homeFs, Option.ite_none_right_eq_some] at hq ⊢
  rcases hq.1 with rfl | rfl
  · simp
  · simp

end Sealing

/-- A peer's file lands beside the folder, and two of its files in one place. -/
theorem name_escapes :
    letI := sealing
    homeFs.Rooted ∧ (∃ fs, (escapingDb.writeToDir 1 home).run homeFs = .ok ((), fs) ∧
      homeFs.node [.ofString "x"] = none ∧ fs.node [.ofString "x"] = some (.file [7])) ∧
      ¬ (homeFs.made (escapingDb.writeToDir 1 home).ops).Nodup ∧
      ¬ homeFs.Confined home (escapingDb.writeToDir 1 home).ops := by
  let _ := sealing
  have hrun : (homeFs.execAll escapingOps).map (fun fs => fs.node [.ofString "x"]) =
      some (some (.file [7])) := by decide +kernel
  have hmade : homeFs.made escapingOps =
      [[.ofString "home"], [.ofString "x"], [.ofString "home", .ofString "y"],
        [.ofString "home", .ofString "y"]] := by decide +kernel
  obtain ⟨fs, hfs, hx⟩ := Option.map_eq_some_iff.mp hrun
  have htwice : ¬ (homeFs.made (escapingDb.writeToDir 1 home).ops).Nodup := by
    rw [escapingDb_ops, hmade]
    decide
  refine ⟨homeFs_rooted, ⟨fs, ?_, ?_, hx⟩, htwice, fun h => htwice h.apart⟩
  · simp [escapingDb_ops, Plan.run, hfs]
  · decide +kernel

end DasProtokoll.Scsync
