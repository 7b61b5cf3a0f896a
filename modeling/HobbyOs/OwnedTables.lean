import HobbyOs.Pages
import HobbyOs.Sv39

/-!
# Page tables in pages of their own

A page table is a root with the tables that its entries lead to (`IsTable`). What
`map_page_sv39` builds of a zeroed page, whatever the kernel does elsewhere in
between, has them in allocated pages that are its own (`Built`, `Owned`).
-/

namespace HobbyOs

open Outcome Radix

variable {cfg : Config} {k k' : Kernel cfg} {R : Type} {root : R → Option TablePage} {r : R} {t u : TablePage}
  {pte : ℕ → ℕ}

/-! ## The tables of a page table -/

/-- An entry of the table at `t` leads to the table at `u`. -/
def Subtable (pte : ℕ → ℕ) (t u : ℕ) : Prop :=
  ∃ n < 512, isNonleaf (pte (t + 8 * n)) = true ∧ u = pteToPhys (pte (t + 8 * n))

/-- A table of the page table at `pt`: its root, or one of the two levels below. -/
def IsTable (pte : ℕ → ℕ) (pt u : ℕ) : Prop :=
  u = pt ∨ Subtable pte pt u ∨ ∃ t, Subtable pte pt t ∧ Subtable pte t u

/-- The shape of a page table: above the last level, an entry is zero or leads to a
    table, and on the last level none does. -/
structure Shaped (pte : ℕ → ℕ) (pt : ℕ) : Prop where
  root : ∀ n < 512, pte (pt + 8 * n) = 0 ∨ isNonleaf (pte (pt + 8 * n)) = true
  second : ∀ t, Subtable pte pt t → ∀ n < 512, pte (t + 8 * n) = 0 ∨ isNonleaf (pte (t + 8 * n)) = true
  last : ∀ t u, Subtable pte pt t → Subtable pte t u → ∀ n < 512, isNonleaf (pte (u + 8 * n)) = false

/-- The tables that the entries of a table lead to are one step further. -/
theorem subtable_iff (h : PageTables pte root) {p : List (Fin 512)} (hp : p.length ≤ 1)
    (ht : sv39.node pte root r p = some t) :
    Subtable pte t u ↔ ∃ n, sv39.node pte root r (n :: p) = some u := by
  have hnode : ∀ n : Fin 512, sv39.node pte root r (n :: p) = sv39.next (pte (t + 8 * n)) := fun n => by
    rw [node_cons, entry_of_node ht]
    rfl
  constructor
  · rintro ⟨n, hn, he, hu⟩
    refine ⟨⟨n, hn⟩, ?_⟩
    rw [hnode, sv39_next (ne_zero_of_isNonleaf he)]
    exact congrArg some (Subtype.ext hu.symm)
  · rintro ⟨n, hn⟩
    have hinner := h.inner (r := r) (p := n :: p) (Nat.succ_le_succ hp)
    rw [entry_of_node ht] at hinner
    rw [hnode] at hn
    rcases hinner with hzero | he
    · rw [show pte (t + 8 * n) = 0 from hzero, sv39.next_zero] at hn
      cases hn
    · have he : isNonleaf (pte (t + 8 * n)) = true := he
      rw [sv39_next (ne_zero_of_isNonleaf he)] at hn
      exact ⟨n, n.2, he, congrArg Subtype.val (Option.some.inj hn).symm⟩

theorem dvd_of_subtable {a b : ℕ} (h : Subtable pte a b) : 4096 ∣ b := by
  obtain ⟨n, -, -, rfl⟩ := h
  exact dvd_pteToPhys _

/-- The tables of a page table are those at the paths up to the last level. -/
theorem isTable_iff (h : PageTables pte root) (hr : root r = some t) :
    IsTable pte t u ↔ ∃ p : List (Fin 512), p.length ≤ 2 ∧ sv39.node pte root r p = some u := by
  have hfirst := fun {u} => subtable_iff (u := u) h (p := []) (by decide) hr
  constructor
  · rintro (hu | hu | ⟨a, ha, hu⟩)
    · exact ⟨[], by decide, by rw [Subtype.ext hu]; exact hr⟩
    · obtain ⟨n, hn⟩ := hfirst.1 hu
      exact ⟨[n], Nat.le_succ 1, hn⟩
    · obtain ⟨n, hn⟩ := (hfirst (u := ⟨a, dvd_of_subtable ha⟩)).1 ha
      obtain ⟨m, hm⟩ := (subtable_iff h (p := [n]) le_rfl hn).1 hu
      exact ⟨[m, n], le_rfl, hm⟩
  · rintro ⟨p, hp, hu⟩
    match p, hp with
    | [], _ => exact .inl (congrArg Subtype.val (Option.some.inj (hr.symm.trans hu))).symm
    | [n], _ => exact .inr (.inl (hfirst.2 ⟨n, hu⟩))
    | [m, n], _ =>
      obtain ⟨a, ha, -⟩ := Option.bind_eq_some_iff.1 hu
      exact .inr (.inr ⟨a, hfirst.2 ⟨n, ha⟩, (subtable_iff h (p := [n]) le_rfl ha).2 ⟨m, hu⟩⟩)

/-- A table whose entries are zero is the only one. -/
theorem isTable_of_bare {a b : ℕ} (h : ∀ n < 512, pte (a + 8 * n) = 0) (hb : IsTable pte a b) : b = a := by
  have hnone : ∀ c, ¬Subtable pte a c := by
    rintro c ⟨n, hn, he, -⟩
    rw [h n hn] at he
    exact absurd he (by decide)
  rcases hb with hb | hb | ⟨c, hc, -⟩
  · exact hb
  · exact absurd hb (hnone b)
  · exact absurd hc (hnone c)

theorem isTable_dvd {a b : ℕ} (ha : 4096 ∣ a) (h : IsTable pte a b) : 4096 ∣ b := by
  rcases h with rfl | h | ⟨_, -, h⟩
  · exact ha
  · exact dvd_of_subtable h
  · exact dvd_of_subtable h

theorem PageTables.shaped (h : PageTables pte root) (hr : root r = some t) : Shaped pte t := by
  have hinner : ∀ p : List (Fin 512), p.length ≤ 1 →
      ∀ u, sv39.node pte root r p = some u → ∀ n < 512,
      pte (u + 8 * n) = 0 ∨ isNonleaf (pte (u + 8 * n)) = true := by
    intro p hp u hu n hn
    have he := h.inner (r := r) (p := ⟨n, hn⟩ :: p) (Nat.succ_le_succ hp)
    rwa [entry_of_node hu] at he
  have hfirst := fun {u} => subtable_iff (u := u) h (p := []) (by decide) hr
  refine ⟨hinner [] (by decide) t hr, fun a ha => ?_, fun a b ha hb n hn => ?_⟩
  · obtain ⟨m, hm⟩ := (hfirst (u := ⟨a, dvd_of_subtable ha⟩)).1 ha
    exact hinner [m] le_rfl _ hm
  · obtain ⟨m, hm⟩ := (hfirst (u := ⟨a, dvd_of_subtable ha⟩)).1 ha
    obtain ⟨l, hl⟩ := (subtable_iff (u := ⟨b, dvd_of_subtable hb⟩) h (p := [m]) le_rfl hm).1 hb
    have he := h.outer (r := r) (p := [⟨n, hn⟩, l, m]) rfl
    rw [entry_of_node hl] at he
    rcases he with hzero | hleaf
    · rw [show pte (b + 8 * n) = 0 from hzero]
      decide
    · exact hleaf.2

/-! ## Tables in pages of their own -/

/-- Trees of tables, each table in an allocated page. -/
structure Owned (k : Kernel cfg) (root : R → Option TablePage) : Prop where
  tables : PageTables k.pte root
  pages : ∀ ⦃r p u⦄, p.length ≤ 2 → sv39.node k.pte root r p = some u →
    ∃ i, u = cfg.pagePtr i ∧ (k.pages i).flags ≠ pageFree
  /-- The entries of the last level are those that `map_page_sv39` writes. -/
  leaves : ∀ ⦃r p⦄, p.length = 3 → sv39.entry k.pte root r p = 0 ∨
    ∃ pa perm, Grants perm ∧ sv39.entry k.pte root r p = leafPte pa perm

/-- Two trees. -/
def both (t u : TablePage) : Bool → Option TablePage := fun b => some (cond b t u)

/-- One tree. -/
def single (t : TablePage) : Unit → Option TablePage := fun _ => some t

namespace Owned

theorem spare (h : Owned k root) : Spare Set.univ k root := by
  intro i u _ hfree hu r p hp hnode
  obtain ⟨j, hj, halloc⟩ := h.pages hp hnode
  obtain rfl : i = j := pagePtr_inj (hu.symm.trans hj)
  exact halloc hfree

/-- A page is mapped. -/
theorem map {pa va perm pid : ℕ} (h : Owned k root) (hplaced : Placed cfg) (hmmu : cfg.mmu = true)
    (hr : root r = some t) (hperm : Grants perm) (hrun : mapPageSv39 t pa va perm pid k = .ok () k') :
    MapsPage Set.univ root r va (leafPte pa perm) k k' ∧ Owned k' root := by
  rw [mapPageSv39_of_mmu hmmu] at hrun
  obtain ⟨k₁, hgrows, hsets⟩ :=
    mapPageLevel_ok hplaced hmmu hperm h.tables h.spare le_rfl hr hrun fun _ _ _ => trivial
  refine ⟨⟨k₁, hgrows, hsets⟩, hsets.tables, fun r' p u hp hu => ?_, fun r' p hp => ?_⟩
  · have hkept : ∀ i, (k.pages i).flags ≠ pageFree → (k'.pages i).flags ≠ pageFree :=
      fun i hi hfree => hi (mapPageLevel_pages hrun hfree)
    rw [hsets.node hp] at hu
    by_cases hrr : r' = r
    · subst hrr
      rcases hgrows.grown hp hu with hu' | ⟨i, -, -, hi⟩
      · obtain ⟨i, hi, halloc⟩ := h.pages hp hu'
        exact ⟨i, hi, hkept i halloc⟩
      · refine ⟨i, hi, fun hfree => ?_⟩
        rw [hsets.pages] at hfree
        exact hgrows.spare trivial hfree hi hp hu
    · rw [hgrows.node_of_ne hrr hp] at hu
      obtain ⟨i, hi, halloc⟩ := h.pages hp hu
      exact ⟨i, hi, hkept i halloc⟩
  · by_cases hself : r' = r ∧ p = vpns va 3
    · obtain ⟨rfl, rfl⟩ := hself
      exact .inr ⟨pa, perm, hperm, hsets.entry_self⟩
    · rw [hsets.entry hp hself, hgrows.entry hp]
      exact h.leaves hp

/-- A zeroed page is a page table. -/
theorem zeroed {i : Fin cfg.numPages} {t : TablePage} (hi : cfg.pagePtr i = t)
    (halloc : (k.pages i).flags ≠ pageFree)
    (hzero : ∀ n < 512, k.pte (t + 8 * n) = 0) : Owned k (single t) := by
  have hbare : ∀ u, single t () = some u → ∀ n, k.pte (sv39.slot u n) = 0 := by
    intro u hu n
    obtain rfl := Option.some.inj hu
    exact hzero n n.2
  have honly : ∀ {p u}, sv39.node k.pte (single t) () p = some u → p = [] ∧ u = t := by
    intro p u hu
    cases p with
    | nil => exact ⟨rfl, (Option.some.inj hu).symm⟩
    | cons n p => exact nomatch (node_of_zero hbare n p).symm.trans hu
  refine ⟨⟨?_, fun _ p _ => .inl (entry_of_zero hbare p), fun _ p _ => .inl (entry_of_zero hbare p)⟩, ?_,
    fun _ p _ => .inl (entry_of_zero hbare p)⟩
  · intro _ p _ p' u _ _ hu hu'
    exact ⟨rfl, (honly hu).1.trans (honly hu').1.symm⟩
  · intro _ p u _ hu
    exact ⟨i, by rw [(honly hu).2, hi], halloc⟩


/-- What happens elsewhere leaves the tables as they are. -/
theorem other (h : Owned k (single t))
    (hpte : ∀ u, IsTable k.pte t u → ∀ n < 512, k'.pte (u + 8 * n) = k.pte (u + 8 * n))
    (hpages : ∀ i, IsTable k.pte t (cfg.pagePtr i) → (k.pages i).flags ≠ pageFree →
      (k'.pages i).flags ≠ pageFree) :
    Owned k' (single t) := by
  have hwords : ∀ ⦃p u⦄, p.length < 3 → sv39.node k.pte (single t) () p = some u →
      ∀ n, k'.pte (sv39.slot u n) = k.pte (sv39.slot u n) := fun p u hp hu n =>
    hpte u ((isTable_iff h.tables rfl).2 ⟨p, Nat.le_of_lt_succ hp, hu⟩) n n.2
  -- No word of a table of `t` changes, so every path leads where it led.
  have hnode : ∀ {p}, p.length ≤ 2 →
      sv39.node k'.pte (single t) () p = sv39.node k.pte (single t) () p := fun hp =>
    node_congr rfl hwords (Nat.le_succ_of_le hp)
  have hentry : ∀ {p}, p.length ≤ 3 →
      sv39.entry k'.pte (single t) () p = sv39.entry k.pte (single t) () p := fun hp =>
    entry_congr rfl hwords hp
  refine ⟨⟨?_, ?_, ?_⟩, ?_, ?_⟩
  · intro _ p _ p' u hp hp' hu hu'
    rw [hnode hp] at hu
    rw [hnode hp'] at hu'
    exact h.tables.separate hp hp' hu hu'
  · intro _ p hp
    rw [hentry (Nat.le_succ_of_le hp)]
    exact h.tables.inner hp
  · intro _ p hp
    rw [hentry hp.le]
    exact h.tables.outer hp
  · intro _ p u hp hu
    rw [hnode hp] at hu
    obtain ⟨i, hi, halloc⟩ := h.pages hp hu
    exact ⟨i, hi, hpages i (hi ▸ (isTable_iff h.tables rfl).2 ⟨p, hp, hu⟩) halloc⟩
  · intro _ p hp
    rw [hentry hp.le]
    exact h.leaves hp

/-- Two trees that share no table. -/
theorem pair (h : Owned k (single t)) (h' : Owned k (single u))
    (hdisjoint : ∀ a, IsTable k.pte t a → ¬IsTable k.pte u a) :
    Owned k (both t u) := by
  have hsingle : ∀ b, Owned k (single (cond b t u)) := fun b => by
    cases b with
    | true => exact h
    | false => exact h'
  have hnode : ∀ b p, sv39.node k.pte (both t u) b p = sv39.node k.pte (single (cond b t u)) () p :=
    fun b _ =>
    node_root (r := b) (s := ()) rfl
  have hentry : ∀ b p, sv39.entry k.pte (both t u) b p = sv39.entry k.pte (single (cond b t u)) () p :=
    fun b _ =>
    entry_root (r := b) (s := ()) rfl
  refine ⟨⟨?_, ?_, ?_⟩, ?_, ?_⟩
  · intro b p b' p' v hp hp' hv hv'
    rw [hnode] at hv hv'
    -- The same table at the end of two paths: both start at the same root.
    have hb : b = b' := by
      have htable := (isTable_iff (hsingle b).tables rfl).2 ⟨p, hp, hv⟩
      have htable' := (isTable_iff (hsingle b').tables rfl).2 ⟨p', hp', hv'⟩
      cases b <;> cases b'
      · rfl
      · exact absurd htable (hdisjoint _ htable')
      · exact absurd htable' (hdisjoint _ htable)
      · rfl
    subst hb
    exact ⟨rfl, ((hsingle b).tables.separate hp hp' hv hv').2⟩
  · intro b p hp
    rw [hentry]
    exact (hsingle b).tables.inner hp
  · intro b p hp
    rw [hentry]
    exact (hsingle b).tables.outer hp
  · intro b p v hp hv
    rw [hnode] at hv
    exact (hsingle b).pages hp hv
  · intro b p hp
    rw [hentry]
    exact (hsingle b).leaves hp

/-- Two trees share no table. -/
theorem disjoint (h : Owned k (both t u)) (a : ℕ) (ht : IsTable k.pte t a) : ¬IsTable k.pte u a := by
  intro hu
  have hdvd := isTable_dvd t.2 ht
  obtain ⟨p, hp, hnode⟩ := (isTable_iff (u := ⟨a, hdvd⟩) h.tables (r := true) rfl).1 ht
  obtain ⟨p', hp', hnode'⟩ := (isTable_iff (u := ⟨a, hdvd⟩) h.tables (r := false) rfl).1 hu
  exact nomatch (h.tables.separate hp hp' hnode hnode').1

end Owned

/-! ## Tables that were built -/

/-- A page table at `pt`, built of a zeroed page of the allocator by calls of
    `map_page_sv39`. In between, the kernel may do anything that leaves the tables
    and their pages alone. -/
inductive Built (pt : ℕ) : Kernel cfg → Prop
  | zeroed {k : Kernel cfg} {i : Fin cfg.numPages} : cfg.pagePtr i = pt → (k.pages i).flags ≠ pageFree →
      (∀ n < 512, k.pte (pt + 8 * n) = 0) → Built pt k
  | map {k k' : Kernel cfg} {pa va perm pid : ℕ} : Built pt k → Grants perm →
      mapPageSv39 pt pa va perm pid k = .ok () k' → Built pt k'
  | other {k k' : Kernel cfg} : Built pt k →
      (∀ t, IsTable k.pte pt t → ∀ n < 512, k'.pte (t + 8 * n) = k.pte (t + 8 * n)) →
      (∀ i, IsTable k.pte pt (cfg.pagePtr i) → (k.pages i).flags ≠ pageFree →
        (k'.pages i).flags ≠ pageFree) →
      Built pt k'

/-- Tables that were built are in pages of their own. -/
theorem Built.owned {pt : ℕ} (hplaced : Placed cfg) (hmmu : cfg.mmu = true) (h : Built pt k) :
    ∃ hpt : 4096 ∣ pt, Owned k (single ⟨pt, hpt⟩) := by
  induction h with
  | @zeroed k i hi halloc hzero =>
    have hpt : 4096 ∣ pt := hi ▸ (pagePtr_page hplaced hmmu i).1
    exact ⟨hpt, .zeroed hi halloc hzero⟩
  | map _ hperm hrun ih =>
    obtain ⟨hpt, h⟩ := ih
    exact ⟨hpt, (h.map (r := ()) hplaced hmmu rfl hperm hrun).2⟩
  | other _ hpte hpages ih =>
    obtain ⟨hpt, h⟩ := ih
    exact ⟨hpt, h.other hpte hpages⟩

theorem Built.mapPages {pt : ℕ} {calls : List PageMapping} (hmmu : cfg.mmu = true) (h : Built pt k)
    (hrun : HobbyOs.mapPages pt calls k = .ok () k') : Built pt k' := by
  induction calls generalizing k with
  | nil =>
    cases hrun
    exact h
  | cons c calls ih =>
    obtain ⟨k₁, h₁, hrun⟩ := mapPages_cons hmmu hrun
    rw [← mapPageSv39_of_mmu hmmu] at h₁
    exact ih (h.map c.grants h₁) hrun

end HobbyOs
