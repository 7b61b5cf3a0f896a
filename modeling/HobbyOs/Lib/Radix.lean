import Mathlib.Algebra.Notation.Defs
import Mathlib.Data.Nat.Notation
import Mathlib.Data.Option.Basic
import Mathlib.Logic.Function.Basic

/-!
# Radix trees in a memory

A *table* has an entry in memory at each of its indices, and an entry may lead
to a further table. From a root, a path of indices leads to a table (`node`)
and to an entry (`entry`); paths have the last index first. Several trees, each
with a label, share the memory.

* `Separate d`: up to the depth `d`, no table is at two places. Then a tree
  changes only where it is written to:
* `node_grow`, `entry_grow`: an entry is made to lead to a fresh table;
* `node_write`, `entry_write`: an entry of the last tables is written.
-/

namespace Radix

/-- How tables lie in memory. -/
structure Layout (T I A E : Type*) [Zero E] where
  /-- The address of the entry of a table at an index. -/
  slot : T → I → A
  slot_inj : Function.Injective2 slot
  /-- The table that an entry leads to. -/
  next : E → Option T
  next_zero : next 0 = none

variable {R T I A E : Type*} [Zero E]

namespace Layout

variable (L : Layout T I A E) (mem : A → E) (root : R → Option T)

/-- The table at a path from a root. -/
def node (r : R) : List I → Option T
  | [] => root r
  | i :: p => (node r p).bind fun t => L.next (mem (L.slot t i))

/-- The entry at a path from a root, zero where there is no table. -/
def entry (r : R) : List I → E
  | [] => 0
  | i :: p => (L.node mem root r p).elim 0 fun t => mem (L.slot t i)

/-- Up to the depth `d`, no table is at two places. -/
def Separate (d : ℕ) : Prop :=
  ∀ ⦃r p r' p' t⦄, p.length ≤ d → p'.length ≤ d → L.node mem root r p = some t →
    L.node mem root r' p' = some t → r = r' ∧ p = p'

/-- A table is none of those up to the depth `d`. -/
def Fresh (d : ℕ) (u : T) : Prop := ∀ ⦃r p⦄, p.length ≤ d → L.node mem root r p ≠ some u

end Layout

variable {L : Layout T I A E} {mem mem' : A → E} {root root' : R → Option T} {d : ℕ} {r r' : R}
  {p q : List I} {i : I} {t u : T}

theorem entry_of_node (h : L.node mem root r p = some t) : L.entry mem root r (i :: p) = mem (L.slot t i) := by
  rw [Layout.entry, h, Option.elim_some]

theorem entry_of_none (h : L.node mem root r p = none) : L.entry mem root r (i :: p) = 0 := by
  rw [Layout.entry, h, Option.elim_none]

theorem node_cons : L.node mem root r (i :: p) = L.next (L.entry mem root r (i :: p)) := by
  rw [Layout.node, Layout.entry]
  cases L.node mem root r p with
  | none => exact L.next_zero.symm
  | some t => rfl

/-- A path leads to the same table from the same root. -/
theorem node_root {R' : Type*} {root' : R' → Option T} {s : R'} (h : root r = root' s) :
    ∀ {p : List I}, L.node mem root r p = L.node mem root' s p
  | [] => h
  | i :: p => by rw [Layout.node, Layout.node, node_root h]

theorem entry_root {R' : Type*} {root' : R' → Option T} {s : R'} (h : root r = root' s) :
    L.entry mem root r p = L.entry mem root' s p := by
  cases p with
  | nil => rfl
  | cons i p => rw [Layout.entry, Layout.entry, node_root h]

/-- Nothing is below a root whose entries are zero. -/
theorem node_of_zero (h : ∀ t, root r = some t → ∀ i, mem (L.slot t i) = 0) :
    ∀ (i : I) (p : List I), L.node mem root r (i :: p) = none
  | i, [] => by
    cases ht : root r with
    | none => rw [Layout.node, Layout.node, ht, Option.bind_none]
    | some t => rw [Layout.node, Layout.node, ht, Option.bind_some, h t ht, L.next_zero]
  | i, j :: p => by rw [Layout.node, node_of_zero h j p, Option.bind_none]

theorem entry_of_zero (h : ∀ t, root r = some t → ∀ i, mem (L.slot t i) = 0) :
    ∀ p : List I, L.entry mem root r p = 0
  | [] => rfl
  | [i] => by
    cases ht : root r with
    | none => exact entry_of_none ht
    | some t => exact (entry_of_node (p := []) ht).trans (h t ht i)
  | i :: j :: p => entry_of_none (node_of_zero h j p)

/-! ## Memory elsewhere -/

/-- Paths lead where they led, if the tables on the way are as they were. -/
theorem node_congr (hroot : root' r = root r)
    (h : ∀ ⦃p t⦄, p.length < d → L.node mem root r p = some t →
      ∀ i, mem' (L.slot t i) = mem (L.slot t i)) :
    ∀ {q}, q.length ≤ d → L.node mem' root' r q = L.node mem root r q
  | [], _ => hroot
  | i :: q, hq => by
    rw [Layout.node, Layout.node, node_congr hroot h (Nat.le_of_succ_le hq)]
    cases ht : L.node mem root r q with
    | none => rfl
    | some t => rw [Option.bind_some, Option.bind_some, h hq ht]

theorem entry_congr (hroot : root' r = root r)
    (h : ∀ ⦃p t⦄, p.length < d → L.node mem root r p = some t →
      ∀ i, mem' (L.slot t i) = mem (L.slot t i))
    (hq : q.length ≤ d) : L.entry mem' root' r q = L.entry mem root r q := by
  cases q with
  | nil => rfl
  | cons i q =>
    rw [Layout.entry, Layout.entry, node_congr hroot h (Nat.le_of_succ_le hq)]
    cases ht : L.node mem root r q with
    | none => rfl
    | some t => rw [Option.elim_some, Option.elim_some, h hq ht]

/-! ## A fresh table -/

section

variable (hsep : L.Separate mem root d) (hp : p.length < d) (ht : L.node mem root r p = some t)
  (hnone : L.next (mem (L.slot t i)) = none) (hfresh : L.Fresh mem root d u)
  (hu : ∀ j, mem' (L.slot u j) = 0) (hnext : L.next (mem' (L.slot t i)) = some u)
  (hmem : ∀ v j, v ≠ u → ¬(v = t ∧ j = i) → mem' (L.slot v j) = mem (L.slot v j))

include hsep hp ht hnone hfresh hu hnext hmem

/-- The fresh table is at the path of the entry that leads to it, and nothing
    else has changed. -/
theorem node_grow (r' : R) : ∀ q : List I, q.length ≤ d →
    (r' = r ∧ q = i :: p → L.node mem' root r' q = some u) ∧
      (¬(r' = r ∧ q = i :: p) → L.node mem' root r' q = L.node mem root r' q)
  | [], _ => ⟨fun h => absurd h.2 (List.cons_ne_nil i p).symm, fun _ => rfl⟩
  | j :: q, hq => by
    have hq' : q.length ≤ d := Nat.le_of_succ_le hq
    obtain ⟨hin, hout⟩ := node_grow r' q hq'
    by_cases hplace : r' = r ∧ q = i :: p
    · -- Below the fresh table, and there was nothing before.
      obtain ⟨rfl, rfl⟩ := hplace
      refine ⟨fun h => ?_, fun _ => ?_⟩
      · exact absurd (congrArg List.length h.2) (by simp)
      · have hold : L.node mem root r' (i :: p) = none := by rw [Layout.node, ht, Option.bind_some, hnone]
        rw [Layout.node, hin ⟨rfl, rfl⟩, Layout.node, hold, Option.bind_some, hu,
          L.next_zero, Option.bind_none]
    · rw [Layout.node, Layout.node, hout hplace]
      cases hv : L.node mem root r' q with
      | none =>
        refine ⟨?_, fun _ => rfl⟩
        rintro ⟨rfl, heq⟩
        obtain ⟨-, rfl⟩ := List.cons.inj heq
        exact nomatch ht.symm.trans hv
      | some v =>
        rw [Option.bind_some, Option.bind_some]
        constructor
        · rintro ⟨rfl, heq⟩
          obtain ⟨rfl, rfl⟩ := List.cons.inj heq
          obtain rfl := Option.some.inj (ht.symm.trans hv)
          exact hnext
        · intro hne
          have hvu : v ≠ u := fun h => hfresh hq' (h ▸ hv)
          rw [hmem v j hvu]
          rintro ⟨rfl, rfl⟩
          obtain ⟨rfl, rfl⟩ := hsep hq' (Nat.le_of_lt hp) hv ht
          exact hne ⟨rfl, rfl⟩

theorem entry_grow (r' : R) (hq : q.length ≤ d + 1) (hne : ¬(r' = r ∧ q = i :: p)) :
    L.entry mem' root r' q = L.entry mem root r' q := by
  cases q with
  | nil => rfl
  | cons j q =>
    have hq' : q.length ≤ d := Nat.le_of_succ_le_succ hq
    obtain ⟨hin, hout⟩ := node_grow hsep hp ht hnone hfresh hu hnext hmem r' q hq'
    by_cases hplace : r' = r ∧ q = i :: p
    · obtain ⟨rfl, rfl⟩ := hplace
      have hold : L.node mem root r' (i :: p) = none := by rw [Layout.node, ht, Option.bind_some, hnone]
      rw [entry_of_node (hin ⟨rfl, rfl⟩), entry_of_none hold, hu]
    · cases hv : L.node mem root r' q with
      | none => rw [entry_of_none hv, entry_of_none ((hout hplace).trans hv)]
      | some v =>
        have hvu : v ≠ u := fun h => hfresh hq' (h ▸ hv)
        rw [entry_of_node hv, entry_of_node ((hout hplace).trans hv), hmem v j hvu]
        rintro ⟨rfl, rfl⟩
        obtain ⟨rfl, rfl⟩ := hsep hq' (Nat.le_of_lt hp) hv ht
        exact hne ⟨rfl, rfl⟩

theorem entry_grow_self : L.entry mem' root r (i :: p) = mem' (L.slot t i) := by
  have hne : ¬(r = r ∧ p = i :: p) := fun h => absurd (congrArg List.length h.2) (by simp)
  have hnode := (node_grow hsep hp ht hnone hfresh hu hnext hmem r p (Nat.le_of_lt hp)).2 hne
  exact entry_of_node (hnode.trans ht)

theorem separate_grow : L.Separate mem' root d := by
  -- The fresh table is at its one place; the others are where they were.
  have hcases : ∀ ⦃r' q v⦄, q.length ≤ d → L.node mem' root r' q = some v →
      (v = u ∧ r' = r ∧ q = i :: p) ∨ (v ≠ u ∧ L.node mem root r' q = some v) := by
    intro r' q v hq hv
    obtain ⟨hin, hout⟩ := node_grow hsep hp ht hnone hfresh hu hnext hmem r' q hq
    by_cases hplace : r' = r ∧ q = i :: p
    · exact .inl ⟨Option.some.inj (hv.symm.trans (hin hplace)), hplace⟩
    · rw [hout hplace] at hv
      exact .inr ⟨fun h => hfresh hq (h ▸ hv), hv⟩
  intro r₁ p₁ r₂ p₂ v h₁ h₂ hv₁ hv₂
  rcases hcases h₁ hv₁ with ⟨hvu, rfl, rfl⟩ | ⟨hvu, hv₁⟩
  · rcases hcases h₂ hv₂ with ⟨-, rfl, rfl⟩ | ⟨hne, -⟩
    · exact ⟨rfl, rfl⟩
    · exact absurd hvu hne
  · rcases hcases h₂ hv₂ with ⟨heq, -⟩ | ⟨-, hv₂⟩
    · exact absurd heq hvu
    · exact hsep h₁ h₂ hv₁ hv₂

end

/-! ## The last tables -/

section

variable (hsep : L.Separate mem root d) (hp : p.length = d) (ht : L.node mem root r p = some t)
  (hmem : ∀ v j, ¬(v = t ∧ j = i) → mem' (L.slot v j) = mem (L.slot v j))

include hsep hp ht hmem

theorem node_write (r' : R) (hq : q.length ≤ d) : L.node mem' root r' q = L.node mem root r' q := by
  refine node_congr (d := d) rfl (fun q v hlt hv j => hmem v j ?_) hq
  rintro ⟨rfl, -⟩
  obtain ⟨-, rfl⟩ := hsep (Nat.le_of_lt hlt) (Nat.le_of_eq hp) hv ht
  exact absurd hp (Nat.ne_of_lt hlt)

theorem entry_write (r' : R) (hq : q.length ≤ d + 1) (hne : ¬(r' = r ∧ q = i :: p)) :
    L.entry mem' root r' q = L.entry mem root r' q := by
  cases q with
  | nil => rfl
  | cons j q =>
    have hq' : q.length ≤ d := Nat.le_of_succ_le_succ hq
    have hnode := node_write hsep hp ht hmem r' hq'
    cases hv : L.node mem root r' q with
    | none => rw [entry_of_none hv, entry_of_none (hnode.trans hv)]
    | some v =>
      rw [entry_of_node hv, entry_of_node (hnode.trans hv), hmem v j]
      rintro ⟨rfl, rfl⟩
      obtain ⟨rfl, rfl⟩ := hsep hq' (Nat.le_of_eq hp) hv ht
      exact hne ⟨rfl, rfl⟩

theorem entry_write_self : L.entry mem' root r (i :: p) = mem' (L.slot t i) :=
  entry_of_node ((node_write hsep hp ht hmem r (Nat.le_of_eq hp)).trans ht)

theorem separate_write : L.Separate mem' root d := by
  intro r₁ p₁ r₂ p₂ v h₁ h₂ hv₁ hv₂
  rw [node_write hsep hp ht hmem _ h₁] at hv₁
  rw [node_write hsep hp ht hmem _ h₂] at hv₂
  exact hsep h₁ h₂ hv₁ hv₂

end

end Radix
