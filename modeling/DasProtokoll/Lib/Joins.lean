import DasProtokoll.Lib.Directories
import Mathlib.Algebra.Order.BigOperators.Group.List

/-!
# Paths that are joined

Paths are joined one after the other. Components of a path hold no slash, so a place
with a slash in its name is one that no path enters.
-/

namespace DasProtokoll

namespace PathBuf

variable {p : PathBuf} {at_ : Place} {component x : OsString} {components names : List OsString}

theorem joinPath_assoc (p q r : PathBuf) : (p.joinPath q).joinPath r = p.joinPath (q.joinPath r) := by
  unfold joinPath
  by_cases hr : r.absolute = true
  · simp [hr]
  · by_cases hq : q.absolute = true
    · simp [hr, hq]
    · cases r.components <;> simp [hr, hq]

/-! ## Components -/

/-- No component has a slash in it. -/
def Split (p : PathBuf) : Prop := ∀ c ∈ p.components, slash ∉ c

theorem notMem_of_mem_splitOnP {c s : OsString} (hc : c ∈ s.splitOnP (· == slash)) : slash ∉ c := by
  induction s generalizing c with
  | nil =>
    rw [List.splitOnP_nil, List.mem_singleton] at hc
    simp [hc]
  | cons b s ih =>
    rw [List.splitOnP_cons_eq_if_modifyHead] at hc
    obtain ⟨d, ds, hsplit⟩ := List.exists_cons_of_ne_nil (List.splitOnP_ne_nil (· == slash) s)
    rw [hsplit] at hc ih
    split at hc
    · rcases List.mem_cons.mp hc with rfl | hc
      · simp
      · exact ih hc
    · rename_i hb
      rw [List.modifyHead_cons] at hc
      rcases List.mem_cons.mp hc with rfl | hc
      · have hd := ih (c := d) (by simp)
        simpa [hd] using Ne.symm (by simpa using hb)
      · exact ih (List.mem_cons_of_mem _ hc)

theorem split_ofOsString (s : OsString) : (ofOsString s).Split := by
  intro c hc
  exact notMem_of_mem_splitOnP (List.mem_of_mem_filter hc)

theorem Split.joinPath {q : PathBuf} (hp : p.Split) (hq : q.Split) : (p.joinPath q).Split := by
  unfold PathBuf.joinPath
  split
  · exact hq
  · intro c hc
    exact (List.mem_append.mp hc).elim (hp c) (hq c)

/-! ## Places -/

theorem mem_steps_iff {q : Place} : q ∈ steps at_ components ↔
    ∃ front, front ≠ [] ∧ front <+: components ∧ q = front.foldl push at_ := by
  induction components generalizing at_ with
  | nil => simp [steps]
  | cons component components ih =>
    rw [steps, List.mem_cons, ih]
    constructor
    · rintro (rfl | ⟨front, -, hfront, rfl⟩)
      · exact ⟨[component], by simp, by simp, rfl⟩
      · exact ⟨component :: front, by simp, by simpa using hfront, rfl⟩
    · rintro ⟨front, hne, hfront, rfl⟩
      obtain ⟨c, front, rfl⟩ := List.exists_cons_of_ne_nil hne
      obtain ⟨rfl, hrest⟩ := List.cons_prefix_cons.mp hfront
      by_cases hnil : front = []
      · subst hnil
        exact Or.inl rfl
      · exact Or.inr ⟨front, hnil, hrest, rfl⟩

theorem prefix_push {t : Place} (h : t <+: push at_ component) : t <+: at_ ∨ t = push at_ component := by
  unfold push at h ⊢
  split at h
  · exact Or.inl h
  · split at h
    · exact Or.inl (h.trans (List.dropLast_prefix at_))
    · rename_i hdot hdots
      rw [if_neg hdot, if_neg hdots]
      rw [List.prefix_concat_iff] at h
      exact h.symm.imp id id

theorem resolve_named (h : p.Named) (cwd : Place) :
    ∃ name ∈ p.components, p.resolve cwd = p.components.dropLast.foldl push (p.root cwd) ++ [name] := by
  obtain ⟨⟨name, hlast, hdot, hdots⟩, -⟩ := h
  refine ⟨name, List.mem_of_getLast? hlast, ?_⟩
  conv_lhs => rw [resolve, ← List.dropLast_append_getLast? name hlast]
  rw [List.foldl_append, List.foldl_cons, List.foldl_nil, push, if_neg hdot, if_neg hdots]

theorem resolve_joinPath {q : PathBuf} (hrel : q.absolute = false) (cwd : Place) :
    (p.joinPath q).resolve cwd = q.components.foldl push (p.resolve cwd) := by
  rw [joinPath_relative p hrel]
  simp only [resolve, List.foldl_append, root]

/-! ## Plain names -/

theorem foldl_push_names (h : ∀ n ∈ names, IsName n) : names.foldl push at_ = at_ ++ names := by
  induction names generalizing at_ with
  | nil => simp
  | cons n names ih =>
    rw [List.forall_mem_cons] at h
    rw [List.foldl_cons, push_name _ h.1, ih h.2, List.append_assoc, List.singleton_append]

theorem exists_name_notMem (names : List OsString) : ∃ q, IsName q ∧ q ∉ names := by
  refine ⟨List.replicate ((names.map List.length).sum + 3) 0x61, ⟨?_, ?_, ?_, ?_, ?_⟩, ?_⟩
  · simp
  · simp [slash]
  · intro h
    simpa [dot] using congrArg List.length h
  · intro h
    simpa [dots] using congrArg List.length h
  · simp
  · intro hmem
    have hlength := List.mem_map_of_mem (f := List.length) hmem
    have hle := List.single_le_sum (fun _ _ => Nat.zero_le _) _ hlength
    rw [List.length_replicate] at hle
    omega

end PathBuf

end DasProtokoll
