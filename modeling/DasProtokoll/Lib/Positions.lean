import Mathlib.Data.List.Nodup
import Mathlib.Data.List.Perm.Basic
import Mathlib.Data.Prod.Basic

/-!
# Positions in a tree

A position in a tree is the way there, one child number for each step. A list
goes through the positions when it has one entry for each of them.
-/

namespace DasProtokoll

variable {α β : Type*}

/-- The list has the entry of each position in `At`, once for each position. -/
def Enumerates (At : List Nat → α → Prop) (l : List α) : Prop :=
  ∃ places : List (List Nat × α), places.Nodup ∧ (∀ p a, (p, a) ∈ places ↔ At p a) ∧
    places.map Prod.snd = l

/-- The positions below a node with the children `cs`. -/
def AtChild (At : β → List Nat → α → Prop) (cs : List β) (p : List Nat) (a : α) : Prop :=
  ∃ i q c, p = i :: q ∧ cs[i]? = some c ∧ At c q a

namespace Enumerates

variable {At At' : List Nat → α → Prop} {l l' : List α}

theorem congr (h : Enumerates At l) (hiff : ∀ p a, At p a ↔ At' p a) : Enumerates At' l := by
  obtain ⟨places, hnodup, hat, hmap⟩ := h
  exact ⟨places, hnodup, fun p a => (hat p a).trans (hiff p a), hmap⟩

theorem mem (h : Enumerates At l) {a : α} : a ∈ l ↔ ∃ p, At p a := by
  obtain ⟨places, -, hat, rfl⟩ := h
  simp [← hat]

theorem perm (h : Enumerates At l) (h' : Enumerates At l') : l.Perm l' := by
  obtain ⟨places, hnodup, hat, rfl⟩ := h
  obtain ⟨places', hnodup', hat', rfl⟩ := h'
  apply List.Perm.map
  rw [List.perm_ext_iff_of_nodup hnodup hnodup']
  rintro ⟨p, a⟩
  rw [hat, hat']

theorem filter (h : Enumerates At l) (P : α → Bool) :
    Enumerates (fun p a => At p a ∧ P a) (l.filter P) := by
  obtain ⟨places, hnodup, hat, rfl⟩ := h
  refine ⟨places.filter fun x => P x.2, hnodup.filter _, ?_, ?_⟩
  · intro p a
    rw [List.mem_filter, hat]
  · rw [List.filter_map]
    rfl

theorem nil (h : ∀ p a, ¬ At p a) : Enumerates At ([] : List α) :=
  ⟨[], List.nodup_nil, fun p a => by simp [h p a], rfl⟩

theorem singleton (a : α) : Enumerates (fun p b => p = [] ∧ b = a) [a] :=
  ⟨[([], a)], List.nodup_singleton _, fun p b => by simp, rfl⟩

theorem map {g : List Nat → List Nat} (hg : Function.Injective g) (h : Enumerates At l) :
    Enumerates (fun p a => ∃ q, p = g q ∧ At q a) l := by
  obtain ⟨places, hnodup, hat, rfl⟩ := h
  refine ⟨places.map (Prod.map g id), hnodup.map (hg.prodMap Function.injective_id), ?_, ?_⟩
  · intro p a
    rw [List.mem_map]
    constructor
    · rintro ⟨⟨q, b⟩, hmem, heq⟩
      obtain ⟨rfl, rfl⟩ := Prod.mk.inj heq
      exact ⟨q, rfl, (hat q b).mp hmem⟩
    · rintro ⟨q, rfl, hq⟩
      exact ⟨(q, a), (hat q a).mpr hq, rfl⟩
  · rw [List.map_map]
    rfl

theorem append (h : Enumerates At l) (h' : Enumerates At' l') (hne : ∀ p a b, At p a → ¬ At' p b) :
    Enumerates (fun p a => At p a ∨ At' p a) (l ++ l') := by
  obtain ⟨places, hnodup, hat, rfl⟩ := h
  obtain ⟨places', hnodup', hat', rfl⟩ := h'
  refine ⟨places ++ places', ?_, ?_, List.map_append⟩
  · rw [List.nodup_append']
    refine ⟨hnodup, hnodup', ?_⟩
    rintro ⟨p, a⟩ hmem hmem'
    exact hne p a a ((hat p a).mp hmem) ((hat' p a).mp hmem')
  · intro p a
    rw [List.mem_append, hat, hat']

theorem node {At : β → List Nat → α → Prop} {cs : List β} (a : α) (h : Enumerates (AtChild At cs) l) :
    Enumerates (fun p b => p = [] ∧ b = a ∨ AtChild At cs p b) (a :: l) := by
  apply (singleton a).append h
  rintro p b b' ⟨rfl, -⟩ ⟨i, q, c, hp, -⟩
  cases hp

/-- The same position with the first child left out. -/
def next : List Nat → List Nat
  | [] => []
  | i :: q => (i + 1) :: q

theorem next_injective : Function.Injective next := by
  intro p q h
  cases p <;> cases q <;> simp_all [next]

theorem atChild_nil (At : β → List Nat → α → Prop) : Enumerates (AtChild At []) [] :=
  nil fun p a h => by
    obtain ⟨i, q, c, -, hc, -⟩ := h
    simp at hc

theorem atChild_cons {At : β → List Nat → α → Prop} {c : β} {cs : List β} (h : Enumerates (At c) l)
    (h' : Enumerates (AtChild At cs) l') : Enumerates (AtChild At (c :: cs)) (l ++ l') := by
  apply ((h.map (List.cons_injective (a := 0))).append (h'.map next_injective) ?_).congr
  · intro p a
    constructor
    · rintro (⟨q, rfl, hq⟩ | ⟨_, rfl, i, q, d, rfl, hd, hq⟩)
      · exact ⟨0, q, c, rfl, rfl, hq⟩
      · exact ⟨i + 1, q, d, rfl, hd, hq⟩
    · rintro ⟨i, q, d, rfl, hd, hq⟩
      cases i with
      | zero =>
        obtain rfl := Option.some.inj hd
        exact Or.inl ⟨q, rfl, hq⟩
      | succ i => exact Or.inr ⟨i :: q, rfl, i, q, d, rfl, hd, hq⟩
  · rintro p a b ⟨q, rfl, -⟩ ⟨_, heq, i, q', d, rfl, -⟩
    cases heq

end Enumerates

end DasProtokoll
