import Mathlib.Data.Nat.Bitwise
import HobbyOs.Lib.Radix
import HobbyOs.PageLedger

/-!
# Page tables as radix trees

The tables that `map_page_sv39` builds are radix trees of three levels in the
words of `pte`: a page of 512 entries is a table, and an entry that is not zero
leads to the page of its physical address (`sv39`).

* `PageTables`: the trees of some roots do not share tables, entries above the
  last level are zero or lead to a table, and those of the last level are zero
  or leaves.
* `MapsPage`: what `map_page_sv39` does to them. One entry is set, and the pages
  that are taken for it become tables (`mapPageSv39_ok`).
* `va2pa_mapPages`: after any calls of `map_page_sv39` on a zeroed table, an
  address translates by the last call for its page, and to nothing if there is
  none.
-/

namespace HobbyOs

open Outcome Radix

variable {cfg : Config} {k k' : Kernel cfg} {pa va perm pid : ℕ}

/-! ## Entries -/

/-- A leaf, in the words of `va2pa`. -/
def IsLeaf (e : ℕ) : Prop := isValid e = true ∧ isNonleaf e = false

/-- Permissions that make an entry a leaf. -/
structure Grants (perm : ℕ) : Prop where
  lt : perm < 2 ^ 10
  reads : hasBit pteR perm = true ∨ hasBit pteX perm = true

/-- The leaf entry for a page. -/
def leafPte (pa perm : ℕ) : ℕ := physToPte pa ||| perm ||| pteA ||| pteD ||| pteV

/-- The flags of a leaf entry: its permissions with A, D and V. -/
def leafFlags (perm : ℕ) : ℕ := perm ||| pteA ||| pteD ||| pteV

theorem leafPte_eq : leafPte pa perm = physToPte pa ||| leafFlags perm := by
  simp only [leafPte, leafFlags, Nat.or_assoc]

theorem leafFlags_lt (h : perm < 2 ^ 10) : leafFlags perm < 2 ^ 10 :=
  Nat.or_lt_two_pow (Nat.or_lt_two_pow (Nat.or_lt_two_pow h (by decide)) (by decide)) (by decide)

theorem physToPte_or {flags : ℕ} (h : flags < 2 ^ 10) :
    physToPte pa ||| flags = 2 ^ 10 * (pa / 2 ^ 12) + flags := by
  rw [physToPte, Nat.mul_comm, Nat.two_pow_add_eq_or_of_lt h]

/-- The page of an entry made for it. -/
theorem pteToPhys_or {flags : ℕ} (hpa : pa < 2 ^ 64) (hdvd : 4096 ∣ pa) (h : flags < 2 ^ 10) :
    pteToPhys (physToPte pa ||| flags) = pa := by
  rw [physToPte_or h, pteToPhys]
  omega

theorem permMask_or {flags : ℕ} (h : flags < 2 ^ 10) : permMask (physToPte pa ||| flags) = flags := by
  rw [physToPte_or h, permMask]
  omega

theorem dvd_pteToPhys (e : ℕ) : 4096 ∣ pteToPhys e := by
  unfold pteToPhys
  omega

/-- Flags are below the page number. -/
theorem hasBit_or {flags bit : ℕ} (h : flags < 2 ^ 10) (hbit : bit < 2 ^ 10) :
    hasBit bit (physToPte pa ||| flags) = hasBit bit flags := by
  have hmod : ∀ e, e &&& bit = (e % 2 ^ 10) &&& bit := by
    intro e
    have hlt : e &&& bit < 2 ^ 10 := Nat.lt_of_le_of_lt Nat.and_le_right hbit
    rw [← Nat.mod_eq_of_lt hlt, Nat.and_mod_two_pow, Nat.mod_eq_of_lt hbit]
  have hflags : (physToPte pa ||| flags) % 2 ^ 10 = flags := permMask_or h
  rw [hasBit, hasBit, hmod, hflags]

theorem hasBit_leafFlags {bit : ℕ} (h : hasBit bit perm = true ∨ bit &&& pteV ≠ 0) :
    hasBit bit (leafFlags perm) = true := by
  simp only [hasBit, leafFlags, Nat.and_or_distrib_right, decide_eq_true_eq, ne_eq, Nat.or_eq_zero_iff] at h ⊢
  rw [Nat.and_comm pteV]
  tauto

theorem isLeaf_leafPte (h : Grants perm) : IsLeaf (leafPte pa perm) := by
  have hlt := leafFlags_lt h.lt
  have hv : hasBit pteV (leafPte pa perm) = true := by
    rw [leafPte_eq, hasBit_or hlt (by decide)]
    exact hasBit_leafFlags (.inr (by decide))
  have hrx : hasBit pteR (leafPte pa perm) = true ∨ hasBit pteX (leafPte pa perm) = true := by
    rw [leafPte_eq, hasBit_or hlt (by decide), hasBit_or hlt (by decide)]
    exact h.reads.imp (fun h => hasBit_leafFlags (.inl h)) fun h => hasBit_leafFlags (.inl h)
  refine ⟨by rw [isValid, hv, Bool.true_or], ?_⟩
  rcases hrx with hr | hx
  · simp [isNonleaf, hr]
  · simp [isNonleaf, hx]

/-- A leaf entry is not zero. -/
theorem IsLeaf.ne_zero {e : ℕ} (h : IsLeaf e) : e ≠ 0 := by
  rintro rfl
  exact absurd h.1 (by decide)

theorem isNonleaf_nonleaf (u : ℕ) : isNonleaf (physToPte u ||| permNonleaf) = true := by
  have hbits : ∀ bit < 2 ^ 10, hasBit bit (physToPte u ||| permNonleaf) = hasBit bit permNonleaf :=
    fun _ hbit => hasBit_or (by decide) hbit
  simp only [isNonleaf, hbits pteV (by decide), hbits pteR (by decide), hbits pteX (by decide)]
  decide

theorem ne_zero_of_isNonleaf {e : ℕ} (h : isNonleaf e = true) : e ≠ 0 := by
  rintro rfl
  exact absurd h (by decide)

theorem isValid_of_isNonleaf {e : ℕ} (h : isNonleaf e = true) : isValid e = true := by
  have hv : hasBit pteV e = true := by
    simp only [isNonleaf, Bool.and_eq_true] at h
    exact h.1.1
  rw [isValid, hv, Bool.true_or]

/-! ## Trees of tables -/

/-- A page for a table. -/
abbrev TablePage : Type := {t : ℕ // 4096 ∣ t}

/-- The layout of Sv39 tables. -/
def sv39 : Layout TablePage (Fin 512) ℕ ℕ where
  slot t n := t + 8 * n
  slot_inj := by
    rintro ⟨t, ht⟩ ⟨t', ht'⟩ n n' h
    have := n.2
    have := n'.2
    dsimp only at h
    exact ⟨Subtype.ext (by dsimp only; omega), Fin.ext (by omega)⟩
  next e := if e = 0 then none else some ⟨pteToPhys e, dvd_pteToPhys e⟩
  next_zero := rfl

theorem sv39_next {e : ℕ} (h : e ≠ 0) : sv39.next e = some ⟨pteToPhys e, dvd_pteToPhys e⟩ := if_neg h

/-- The index of an address in the tables of a level. -/
def vpnIndex (va level : ℕ) : Fin 512 := ⟨vpn va level, Nat.mod_lt _ (by decide)⟩

/-- The indices of an address in the first `n` tables on its way. -/
def vpns (va : ℕ) : ℕ → List (Fin 512)
  | 0 => []
  | n + 1 => vpnIndex va (2 - n) :: vpns va n

@[simp] theorem length_vpns (va n : ℕ) : (vpns va n).length = n := by
  induction n with
  | zero => rfl
  | succ n ih => rw [vpns, List.length_cons, ih]

/-- One index more on the way of an address. -/
theorem vpns_succ (va : ℕ) {level : ℕ} (hlevel : level + 1 ≤ 2) :
    vpns va (2 - level) = vpnIndex va (level + 1) :: vpns va (2 - (level + 1)) := by
  rw [show 2 - level = 2 - (level + 1) + 1 by omega, vpns, show 2 - (2 - (level + 1)) = level + 1 by omega]

variable {R : Type} {root : R → Option TablePage} {r : R} {t : TablePage}

/-- The trees of some roots. -/
structure PageTables (pte : ℕ → ℕ) (root : R → Option TablePage) : Prop where
  separate : sv39.Separate pte root 2
  inner : ∀ ⦃r p⦄, p.length ≤ 2 → sv39.entry pte root r p = 0 ∨
    isNonleaf (sv39.entry pte root r p) = true
  outer : ∀ ⦃r p⦄, p.length = 3 → sv39.entry pte root r p = 0 ∨ IsLeaf (sv39.entry pte root r p)

/-- The walk of `va2pa` finds the entry at the path of the address. -/
theorem walk_eq {pte : ℕ → ℕ} (h : PageTables pte root) (va : ℕ) {level : ℕ} (hlevel : level ≤ 2)
    (ht : sv39.node pte root r (vpns va (2 - level)) = some t) :
    walk pte va level t =
      if sv39.entry pte root r (vpns va 3) = 0 then none else some (sv39.entry pte root r (vpns va 3)) := by
  induction level generalizing t with
  | zero =>
    have he : sv39.entry pte root r (vpns va 3) = pte (t + 8 * vpn va 0) := entry_of_node ht
    rw [he, walk]
    rcases h.outer (r := r) (length_vpns va 3) with hzero | hleaf
    · rw [he] at hzero
      rw [hzero]
      rfl
    · rw [he] at hleaf
      simp [hleaf.1, hleaf.2, hleaf.ne_zero]
  | succ level ih =>
    -- One table further: the entry there leads to the next one, or is zero.
    have hpath := vpns_succ va hlevel
    have he : sv39.entry pte root r (vpns va (2 - level)) = pte (t + 8 * vpn va (level + 1)) := by
      rw [hpath]
      exact entry_of_node ht
    have hnode : sv39.node pte root r (vpns va (2 - level)) =
        sv39.next (sv39.entry pte root r (vpns va (2 - level))) := by rw [hpath, node_cons]
    rw [walk]
    rcases h.inner (r := r) (p := vpns va (2 - level)) (by rw [length_vpns]; omega) with hzero | hnonleaf
    · -- There is no table further down, and so no entry.
      rw [hzero, sv39.next_zero] at hnode
      rw [he] at hzero
      rw [hzero, if_pos (by decide)]
      have hlast : ∀ n, sv39.node pte root r (vpns va (2 - level + n)) = none := by
        intro n
        induction n with
        | zero => exact hnode
        | succ n ih => rw [Nat.add_succ, vpns, Layout.node, ih, Option.bind_none]
      have hnone : sv39.entry pte root r (vpns va 3) = 0 := by
        refine entry_of_none (p := vpns va 2) ?_
        rw [show 2 = 2 - level + level by omega]
        exact hlast level
      rw [hnone, if_pos rfl]
    · rw [sv39_next (ne_zero_of_isNonleaf hnonleaf), he] at hnode
      rw [he] at hnonleaf
      rw [isValid_of_isNonleaf hnonleaf, hnonleaf]
      exact ih (by omega) hnode

/-- The leaf of an address is the entry at its path. -/
theorem leaf_eq {pte : ℕ → ℕ} (h : PageTables pte root) (hr : root r = some t) (va : ℕ) :
    leaf pte t va =
      if sv39.entry pte root r (vpns va 3) = 0 then none else some (sv39.entry pte root r (vpns va 3)) :=
  walk_eq h va le_rfl hr

/-- An address translates by the leaf at its path. -/
theorem va2pa_of_entry (hmmu : cfg.mmu = true) (h : PageTables k.pte root)
    (hr : root r = some t) (hpa : pa < 2 ^ 64)
    (hdvd : 4096 ∣ pa) (hperm : Grants perm) (he : sv39.entry k.pte root r (vpns va 3) = leafPte pa perm) :
    va2pa k t va = pa + pageOffs cfg va := by
  have hoffs : pageOffs cfg va < 2 ^ 12 := by
    rw [pageOffs, cfg.pageSize_of_mmu hmmu]
    exact Nat.mod_lt _ (by decide)
  obtain ⟨q, rfl⟩ := hdvd
  rw [va2pa, if_pos hmmu, leaf_eq h hr, he, if_neg (isLeaf_leafPte hperm).ne_zero]
  dsimp only
  rw [image, leafPte_eq, pteToPhys_or hpa (Nat.dvd_mul_right _ _) (leafFlags_lt hperm.lt),
    show 4096 = 2 ^ 12 from rfl,
    Nat.two_pow_add_eq_or_of_lt hoffs]

/-! ## Mapping a page -/

/-- No page of `F` that is free is a table. -/
def Spare (F : Set (Fin cfg.numPages)) (k : Kernel cfg) (root : R → Option TablePage) : Prop :=
  ∀ ⦃i⦄ ⦃u : TablePage⦄, i ∈ F → (k.pages i).flags = pageFree → u = cfg.pagePtr i →
    sv39.Fresh k.pte root 2 u

/-- Pages of `F` were taken for tables of the tree of `r`, with no entry of the
    last level set. -/
structure GrowsTables (F : Set (Fin cfg.numPages)) (root : R → Option TablePage) (r : R)
    (k k' : Kernel cfg) : Prop where
  tables : PageTables k'.pte root
  spare : Spare F k' root
  entry : ∀ ⦃r' p⦄, p.length = 3 → sv39.entry k'.pte root r' p = sv39.entry k.pte root r' p
  /-- Tables stay where they are, and those of other trees are as they were. -/
  node : ∀ ⦃r' p u⦄, p.length ≤ 2 → sv39.node k.pte root r' p = some u →
    sv39.node k'.pte root r' p = some u
  node_of_ne : ∀ ⦃r' p⦄, r' ≠ r → p.length ≤ 2 →
    sv39.node k'.pte root r' p = sv39.node k.pte root r' p
  /-- A new table is a page that was free. -/
  grown : ∀ ⦃p u⦄, p.length ≤ 2 → sv39.node k'.pte root r p = some u →
    sv39.node k.pte root r p = some u ∨ ∃ i ∈ F, (k.pages i).flags = pageFree ∧ u = cfg.pagePtr i
  /-- A page that was taken is a table. -/
  taken : ∀ ⦃i⦄, (k.pages i).flags = pageFree → (k'.pages i).flags ≠ pageFree →
    ∃ p u, p.length ≤ 2 ∧ sv39.node k'.pte root r p = some u ∧ u = cfg.pagePtr i
  free : ∀ ⦃i⦄, (k'.pages i).flags = pageFree → (k.pages i).flags = pageFree

theorem GrowsTables.refl {F : Set (Fin cfg.numPages)} (htables : PageTables k.pte root)
    (hspare : Spare F k root) : GrowsTables F root r k k :=
  ⟨htables, hspare, fun _ _ _ => rfl, fun _ _ _ _ h => h, fun _ _ _ _ => rfl, fun _ _ _ h => .inl h,
    fun _ h h' => absurd h h', fun _ h => h⟩

theorem GrowsTables.trans {F : Set (Fin cfg.numPages)} {k₁ : Kernel cfg} (h : GrowsTables F root r k k₁)
    (h' : GrowsTables F root r k₁ k') : GrowsTables F root r k k' where
  tables := h'.tables
  spare := h'.spare
  entry _ _ hp := (h'.entry hp).trans (h.entry hp)
  node _ _ _ hp hu := h'.node hp (h.node hp hu)
  node_of_ne _ _ hr hp := (h'.node_of_ne hr hp).trans (h.node_of_ne hr hp)
  grown p u hp hu := by
    rcases h'.grown hp hu with hu | ⟨i, hF, hi, hu⟩
    · exact h.grown hp hu
    · exact .inr ⟨i, hF, h.free hi, hu⟩
  taken i hi hi' := by
    by_cases h₁ : (k₁.pages i).flags = pageFree
    · exact h'.taken h₁ hi'
    · obtain ⟨p, u, hp, hu, heq⟩ := h.taken hi h₁
      exact ⟨p, u, hp, h'.node hp hu, heq⟩
  free _ hi := h.free (h'.free hi)

/-- The entry of `va` in the tree of `r` was set to `e`. -/
structure SetsEntry (root : R → Option TablePage) (r : R) (va e : ℕ) (k k' : Kernel cfg) : Prop where
  tables : PageTables k'.pte root
  node : ∀ ⦃r' p⦄, p.length ≤ 2 → sv39.node k'.pte root r' p = sv39.node k.pte root r' p
  entry : ∀ ⦃r' p⦄, p.length = 3 → ¬(r' = r ∧ p = vpns va 3) →
    sv39.entry k'.pte root r' p = sv39.entry k.pte root r' p
  entry_self : sv39.entry k'.pte root r (vpns va 3) = e
  pages : k'.pages = k.pages

/-- The entry of `va` in the tree of `r` was set to `e`, with pages of `F` taken
    for the tables on the way. -/
def MapsPage (F : Set (Fin cfg.numPages)) (root : R → Option TablePage) (r : R) (va e : ℕ)
    (k k' : Kernel cfg) : Prop :=
  ∃ k₁, GrowsTables F root r k k₁ ∧ SetsEntry root r va e k₁ k'

/-- A table for the entry `n` of the table `t`, in a page taken for it. -/
def Kernel.growTable (k : Kernel cfg) (t n : ℕ) (i : Fin cfg.numPages) (pid : ℕ) : Kernel cfg :=
  { k.takePage i pid with
    pte := Function.update
      (fun a => if cfg.pagePtr i ≤ a ∧ a < cfg.pagePtr i + cfg.pageSize then 0 else k.pte a)
      (t + 8 * n) (physToPte (cfg.pagePtr i) ||| permNonleaf) }

/-- One level of `map_page_sv39`: it goes on in the table that the entry leads
    to, or in one that it takes a page for. -/
theorem mapPageLevel_succ {level pt : ℕ} (hmap : mapPageLevel pa va perm pid (level + 1) pt k = .ok () k') :
    (k.pte (pt + 8 * vpn va (level + 1)) ≠ 0 ∧
      mapPageLevel pa va perm pid level (pteToPhys (k.pte (pt + 8 * vpn va (level + 1)))) k = .ok () k') ∨
    (k.pte (pt + 8 * vpn va (level + 1)) = 0 ∧ ∃ i, (k.pages i).flags = pageFree ∧
      mapPageLevel pa va perm pid level (cfg.pagePtr i) (k.growTable pt (vpn va (level + 1)) i pid) =
        .ok () k') := by
  obtain ⟨_, _, hget, h⟩ := bind_eq_ok.1 hmap
  cases hget
  clear hmap
  by_cases hzero : k.pte (pt + 8 * vpn va (level + 1)) = 0
  · rw [if_pos hzero] at h
    refine .inr ⟨hzero, ?_⟩
    obtain ⟨o, k₁, halloc, hrest⟩ := bind_eq_ok.1 h
    rcases kalloc_ok halloc with ⟨rfl, -, rfl⟩ | ⟨i, rfl, hfree, rfl⟩
    · cases hrest
    · exact ⟨i, mem_freePages.1 (freePage_mem hfree), hrest⟩
  · rw [if_neg hzero] at h
    exact .inl ⟨hzero, h⟩

theorem flags_growTable {t n : ℕ} {i : Fin cfg.numPages} (j : Fin cfg.numPages) :
    ((k.growTable t n i pid).pages j).flags = pageFree ↔ (k.pages j).flags = pageFree ∧ j ≠ i := by
  by_cases hj : j = i
  · subst hj
    simp [Kernel.growTable, Kernel.takePage]
  · simp [Kernel.growTable, Kernel.takePage, hj]

theorem mapPageSv39_of_mmu (hmmu : cfg.mmu = true) {pt : ℕ} :
    (mapPageSv39 pt pa va perm pid : KM cfg Unit) = mapPageLevel pa va perm pid 2 pt := if_pos hmmu

/-- Pages are taken, and none is released. -/
theorem mapPageLevel_pages {level pt : ℕ} (h : mapPageLevel pa va perm pid level pt k = .ok () k')
    {i : Fin cfg.numPages} (hi : (k'.pages i).flags = pageFree) : (k.pages i).flags = pageFree := by
  induction level generalizing pt k with
  | zero =>
    cases h
    exact hi
  | succ level ih =>
    rcases mapPageLevel_succ h with ⟨-, h⟩ | ⟨-, j, -, h⟩
    · exact ih h
    · exact ((flags_growTable i).1 (ih h)).1

section

variable (hplaced : Placed cfg) (hmmu : cfg.mmu = true)
include hplaced hmmu

/-- Pages are aligned, and below the end of the addresses. -/
theorem pagePtr_page (i : Fin cfg.numPages) : 4096 ∣ cfg.pagePtr i ∧ cfg.pagePtr i < 2 ^ 64 := by
  have hsize := cfg.pageSize_of_mmu hmmu
  have hpos := pageSize_pos cfg
  have hdvd : cfg.pageSize ∣ cfg.pagePtr i := Nat.dvd_add hplaced.dvd_pagesStart (Nat.dvd_mul_left _ _)
  rw [hsize] at hdvd
  have hi : (i : ℕ) < (cfg.memEnd - cfg.pagesStart + cfg.pageSize - 1) / cfg.pageSize :=
    i.2.trans_le (Nat.min_le_right _ _)
  have hmul := (Nat.lt_div_iff_mul_lt hpos).1 hi
  have hend := cfg.memEnd_le
  refine ⟨hdvd, ?_⟩
  rw [Config.pagePtr]
  omega

/-- The words of memory in `k₁` are those of `k` but for a fresh table `u`, which the
    entry `n` of the table `t`, at the path `p`, leads to. -/
structure GrowsAt (root : R → Option TablePage) (r : R) (p : List (Fin 512)) (n : Fin 512) (t u : TablePage)
    (k k₁ : Kernel cfg) : Prop where
  separate : sv39.Separate k.pte root 2
  lt : p.length < 2
  at_ : sv39.node k.pte root r p = some t
  none : sv39.next (k.pte (sv39.slot t n)) = none
  fresh : sv39.Fresh k.pte root 2 u
  clear : ∀ j, k₁.pte (sv39.slot u j) = 0
  self : k₁.pte (sv39.slot t n) = physToPte u ||| permNonleaf
  next : sv39.next (k₁.pte (sv39.slot t n)) = some u
  words : ∀ v j, v ≠ u → ¬(v = t ∧ j = n) → k₁.pte (sv39.slot v j) = k.pte (sv39.slot v j)

namespace GrowsAt

omit hplaced hmmu

variable {p q : List (Fin 512)} {n : Fin 512} {u : TablePage} {k₁ : Kernel cfg}

theorem node (h : GrowsAt root r p n t u k k₁) (r' : R) (hq : q.length ≤ 2) :
    (r' = r ∧ q = n :: p → sv39.node k₁.pte root r' q = some u) ∧
      (¬(r' = r ∧ q = n :: p) → sv39.node k₁.pte root r' q = sv39.node k.pte root r' q) :=
  node_grow h.separate h.lt h.at_ h.none h.fresh h.clear h.next h.words r' q hq

theorem entry (h : GrowsAt root r p n t u k k₁) (r' : R) (hq : q.length ≤ 3)
    (hne : ¬(r' = r ∧ q = n :: p)) :
    sv39.entry k₁.pte root r' q = sv39.entry k.pte root r' q :=
  entry_grow h.separate h.lt h.at_ h.none h.fresh h.clear h.next h.words r' hq hne

theorem entry_self (h : GrowsAt root r p n t u k k₁) :
    sv39.entry k₁.pte root r (n :: p) = physToPte u ||| permNonleaf :=
  (entry_grow_self h.separate h.lt h.at_ h.none h.fresh h.clear h.next h.words).trans h.self

/-- There was no table at the new place. -/
theorem node_none (h : GrowsAt root r p n t u k k₁) : sv39.node k.pte root r (n :: p) = .none := by
  rw [Layout.node, h.at_, Option.bind_some, h.none]

/-- The trees are page tables still. -/
theorem tables (h : GrowsAt root r p n t u k k₁) (htables : PageTables k.pte root) :
    PageTables k₁.pte root := by
  refine ⟨separate_grow h.separate h.lt h.at_ h.none h.fresh h.clear h.next h.words, ?_, ?_⟩
  · intro r' q hq
    by_cases hqp : r' = r ∧ q = n :: p
    · obtain ⟨rfl, rfl⟩ := hqp
      rw [h.entry_self]
      exact .inr (isNonleaf_nonleaf _)
    · rw [h.entry r' (hq.trans (by decide)) hqp]
      exact htables.inner hq
  · intro r' q hq
    have hqp : ¬(r' = r ∧ q = n :: p) := by
      rintro ⟨-, rfl⟩
      have := h.lt
      rw [List.length_cons] at hq
      omega
    rw [h.entry r' hq.le hqp]
    exact htables.outer hq

end GrowsAt

/-- A page that is none of the tables is cleared for a new one. -/
theorem growTable_growsAt (pid : ℕ) {level : ℕ} {i : Fin cfg.numPages} {u : TablePage}
    (htables : PageTables k.pte root) (hlevel : level + 1 ≤ 2)
    (ht : sv39.node k.pte root r (vpns va (2 - (level + 1))) = some t)
    (hzero : k.pte (t + 8 * vpn va (level + 1)) = 0) (hfresh : sv39.Fresh k.pte root 2 u)
    (hu : u = cfg.pagePtr i) :
    GrowsAt root r (vpns va (2 - (level + 1))) (vpnIndex va (level + 1)) t u k
      (k.growTable t (vpn va (level + 1)) i pid) := by
  set k₁ := k.growTable t (vpn va (level + 1)) i pid with hk₁
  set n := vpnIndex va (level + 1) with hn
  have hlt : (vpns va (2 - (level + 1))).length < 2 := by
    rw [length_vpns]
    omega
  have hut : u ≠ t := fun h => hfresh hlt.le (h ▸ ht)
  have hpte : k₁.pte = Function.update
      (fun a => if cfg.pagePtr i ≤ a ∧ a < cfg.pagePtr i + cfg.pageSize then 0 else k.pte a)
      (sv39.slot t n) (physToPte (cfg.pagePtr i) ||| permNonleaf) := rfl
  have hself : k₁.pte (sv39.slot t n) = physToPte u ||| permNonleaf := by
    rw [hpte, Function.update_self, hu]
  have hother : ∀ v j, ¬(v = t ∧ j = n) → k₁.pte (sv39.slot v j) =
      if cfg.pagePtr i ≤ sv39.slot v j ∧ sv39.slot v j < cfg.pagePtr i + cfg.pageSize then 0
      else k.pte (sv39.slot v j) := by
    intro v j hne
    rw [hpte, Function.update_of_ne fun h => hne (sv39.slot_inj h)]
  -- the words of the page are the entries of the table in it
  have hinside : ∀ v j, (cfg.pagePtr i ≤ sv39.slot v j ∧ sv39.slot v j < cfg.pagePtr i + cfg.pageSize) ↔
      v = u := by
    intro v j
    have hv := v.2
    have hdvd := u.2
    have hj := j.2
    rw [← hu, cfg.pageSize_of_mmu hmmu]
    simp only [sv39]
    constructor
    · intro h
      exact Subtype.ext (by omega)
    · rintro rfl
      omega
  have hnext : sv39.next (k₁.pte (sv39.slot t n)) = some u := by
    have hpage := pagePtr_page hplaced hmmu i
    rw [← hu] at hpage
    rw [hself, sv39_next (ne_zero_of_isNonleaf (isNonleaf_nonleaf _))]
    exact congrArg some (Subtype.ext (pteToPhys_or hpage.2 hpage.1 (by decide)))
  refine ⟨htables.separate, hlt, ht, ?_, hfresh, fun j => ?_, hself, hnext, fun v j hv hne => ?_⟩
  · rw [show k.pte (sv39.slot t n) = 0 from hzero, sv39.next_zero]
  · rw [hother u j fun h => hut h.1, if_pos ((hinside u j).2 rfl)]
  · rw [hother v j hne, if_neg fun h => hv ((hinside v j).1 h)]

/-- A table is grown in a page that is none of the tables. -/
theorem growTable_grows {F : Set (Fin cfg.numPages)} {level : ℕ} {i : Fin cfg.numPages} {u : TablePage}
    (htables : PageTables k.pte root) (hspare : Spare F k root) (hlevel : level + 1 ≤ 2)
    (ht : sv39.node k.pte root r (vpns va (2 - (level + 1))) = some t)
    (hzero : k.pte (t + 8 * vpn va (level + 1)) = 0) (hi : (k.pages i).flags = pageFree) (hF : i ∈ F)
    (hu : u = cfg.pagePtr i) :
    GrowsTables F root r k (k.growTable t (vpn va (level + 1)) i pid) ∧
      sv39.node (k.growTable t (vpn va (level + 1)) i pid).pte root r (vpns va (2 - level)) = some u := by
  have h := growTable_growsAt hplaced hmmu pid htables hlevel ht hzero (hspare hF hi hu) hu
  rw [vpns_succ va hlevel]
  set n := vpnIndex va (level + 1)
  set p := vpns va (2 - (level + 1))
  have hlen : (n :: p).length ≤ 2 := h.lt
  -- What grows is the one node at `n :: p`; all other nodes and entries are as they
  -- were.
  refine ⟨⟨h.tables htables, ?_, ?_, ?_, ?_, ?_, ?_, ?_⟩, (h.node r hlen).1 ⟨rfl, rfl⟩⟩
  · intro j v hj hfree hv r' q hq hqv
    obtain ⟨hfree', hji⟩ := (flags_growTable j).1 hfree
    by_cases hqp : r' = r ∧ q = n :: p
    · rw [(h.node r' hq).1 hqp] at hqv
      refine hji (pagePtr_inj ?_)
      rw [← hv, ← hu, Option.some.inj hqv]
    · rw [(h.node r' hq).2 hqp] at hqv
      exact hspare hj hfree' hv hq hqv
  · intro r' q hq
    refine h.entry r' hq.le ?_
    rintro ⟨-, rfl⟩
    omega
  · intro r' q v hq hv
    refine ((h.node r' hq).2 ?_).trans hv
    rintro ⟨rfl, rfl⟩
    exact nomatch h.node_none.symm.trans hv
  · intro r' q hr hq
    exact (h.node r' hq).2 fun h => hr h.1
  · intro q v hq hv
    by_cases hqp : r = r ∧ q = n :: p
    · rw [(h.node r hq).1 hqp] at hv
      exact .inr ⟨i, hF, hi, by rw [← Option.some.inj hv, hu]⟩
    · rw [(h.node r hq).2 hqp] at hv
      exact .inl hv
  · intro j hj hj'
    obtain rfl : j = i := by
      by_contra hji
      exact hj' ((flags_growTable j).2 ⟨hj, hji⟩)
    exact ⟨n :: p, u, hlen, (h.node r hlen).1 ⟨rfl, rfl⟩, hu⟩
  · intro j hj
    exact ((flags_growTable j).1 hj).1

omit hplaced hmmu in
/-- An entry of the last level is set. -/
theorem setPte_sets {e : ℕ} (htables : PageTables k.pte root) (he : IsLeaf e)
    (ht : sv39.node k.pte root r (vpns va 2) = some t) :
    SetsEntry root r va e k { k with pte := Function.update k.pte (t + 8 * vpn va 0) e } := by
  set pte := Function.update k.pte (t + 8 * vpn va 0) e with hpte
  have hlen : (vpns va 2).length = 2 := length_vpns va 2
  have hself : pte (sv39.slot t (vpnIndex va 0)) = e := Function.update_self _ _ _
  -- One word of the last table changes.
  have hmem : ∀ v j, ¬(v = t ∧ j = vpnIndex va 0) → pte (sv39.slot v j) = k.pte (sv39.slot v j) := by
    intro v j hne
    exact Function.update_of_ne (fun h => hne (sv39.slot_inj h)) _ _
  have hnode := fun {q} => node_write (q := q) htables.separate hlen ht hmem
  have hentry := fun {q} => entry_write (q := q) htables.separate hlen ht hmem
  have hentry_self := (entry_write_self htables.separate hlen ht hmem).trans hself
  refine ⟨⟨separate_write htables.separate hlen ht hmem, ?_, ?_⟩, fun _ _ =>
    hnode _, ?_, hentry_self, rfl⟩
  · intro r' q hq
    have hne : ¬(r' = r ∧ q = vpnIndex va 0 :: vpns va 2) := by
      rintro ⟨-, rfl⟩
      rw [List.length_cons, length_vpns] at hq
      omega
    rw [hentry r' (hq.trans (by decide)) hne]
    exact htables.inner hq
  · intro r' q hq
    by_cases hqp : r' = r ∧ q = vpnIndex va 0 :: vpns va 2
    · obtain ⟨rfl, rfl⟩ := hqp
      rw [hentry_self]
      exact .inr he
    · rw [hentry r' hq.le hqp]
      exact htables.outer hq
  · intro r' q hq hne
    exact hentry r' hq.le hne

/-- `map_page_sv39`, from the table of a level down. -/
theorem mapPageLevel_ok {F : Set (Fin cfg.numPages)} {level : ℕ} (hperm : Grants perm)
    (htables : PageTables k.pte root) (hspare : Spare F k root) (hlevel : level ≤ 2)
    (ht : sv39.node k.pte root r (vpns va (2 - level)) = some t)
    (h : mapPageLevel pa va perm pid level t k = .ok () k')
    (hF : ∀ i, (k.pages i).flags = pageFree → (k'.pages i).flags ≠ pageFree → i ∈ F) :
    MapsPage F root r va (leafPte pa perm) k k' := by
  induction level generalizing t k with
  | zero =>
    cases h
    exact ⟨k, .refl htables hspare, setPte_sets htables (isLeaf_leafPte hperm) ht⟩
  | succ level ih =>
    have hpath := vpns_succ va hlevel
    rcases mapPageLevel_succ h with ⟨hne, h⟩ | ⟨hzero, i, hi, h⟩
    · have hnode : sv39.node k.pte root r (vpns va (2 - level)) =
          some ⟨pteToPhys (k.pte (t + 8 * vpn va (level + 1))), dvd_pteToPhys _⟩ := by
        rw [hpath, node_cons, entry_of_node ht, show k.pte (sv39.slot t _) =
          k.pte (t + 8 * vpn va (level + 1)) from rfl,
          sv39_next hne]
      exact ih htables hspare (by omega) hnode h hF
    · -- The page stays taken until the end.
      have hi' : (k'.pages i).flags ≠ pageFree := fun hfree =>
        ((flags_growTable i).1 (mapPageLevel_pages h hfree)).2 rfl
      obtain ⟨hgrows, hnode⟩ := growTable_grows (u := ⟨cfg.pagePtr i, (pagePtr_page hplaced hmmu i).1⟩)
        hplaced hmmu htables hspare hlevel ht hzero hi (hF i hi hi') rfl
      obtain ⟨k₁, hgrows', hsets⟩ := ih hgrows.tables hgrows.spare (by omega) hnode h
        fun j hj hj' => hF j (hgrows.free hj) hj'
      exact ⟨k₁, hgrows.trans hgrows', hsets⟩

end

/-! ## Any number of mappings -/

/-- A call of `map_page_sv39` on some table: a page, and permissions that make
    the entry a leaf. -/
structure PageMapping where
  pa : ℕ
  va : ℕ
  perm : ℕ
  pid : ℕ
  pa_lt : pa < 2 ^ 64
  dvd_pa : 4096 ∣ pa
  grants : Grants perm

/-- A number of calls of `map_page_sv39` on the table `pt`, one after the other. -/
def mapPages (pt : ℕ) (calls : List PageMapping) : KM cfg Unit :=
  calls.forM fun c => mapPageSv39 pt c.pa c.va c.perm c.pid

/-- Addresses have the same three VPN fields. -/
def SameVpns (va va' : ℕ) : Prop := ∀ level < 3, vpn va level = vpn va' level

instance (va va' : ℕ) : Decidable (SameVpns va va') := by unfold SameVpns; infer_instance

theorem vpns_eq_iff {va va' : ℕ} : vpns va 3 = vpns va' 3 ↔ SameVpns va va' := by
  simp only [vpns, List.cons.injEq, and_true]
  constructor
  · rintro ⟨h₀, h₁, h₂⟩ level hlevel
    match level, hlevel with
    | 0, _ => exact congrArg Fin.val h₀
    | 1, _ => exact congrArg Fin.val h₁
    | 2, _ => exact congrArg Fin.val h₂
  · intro h
    exact ⟨Fin.ext (h 0 (by decide)), Fin.ext (h 1 (by decide)), Fin.ext (h 2 (by decide))⟩

/-- The last call for the page of an address. -/
def lastFor (calls : List PageMapping) (va : ℕ) : Option PageMapping :=
  calls.reverse.find? fun c => SameVpns c.va va

theorem lastFor_cons (c : PageMapping) (calls : List PageMapping) :
    lastFor (c :: calls) va = (lastFor calls va).or (if SameVpns c.va va then some c else none) := by
  rw [lastFor, List.reverse_cons, List.find?_append, lastFor]
  by_cases h : SameVpns c.va va
  · simp [h]
  · simp [h]

theorem mapPages_cons {pt : ℕ} (hmmu : cfg.mmu = true) {c : PageMapping} {calls : List PageMapping}
    (h : mapPages pt (c :: calls) k = .ok () k') :
    ∃ k₁, mapPageLevel c.pa c.va c.perm c.pid 2 pt k = .ok () k₁ ∧
    mapPages pt calls k₁ = .ok () k' := by
  obtain ⟨_, k₁, h₁, h⟩ := bind_eq_ok.1 h
  have hmap : mapPageSv39 pt c.pa c.va c.perm c.pid k = .ok () k₁ := h₁
  rw [mapPageSv39_of_mmu hmmu] at hmap
  exact ⟨k₁, hmap, h⟩

theorem mapPages_pages {pt : ℕ} (hmmu : cfg.mmu = true) {calls : List PageMapping}
    (h : mapPages pt calls k = .ok () k') {i : Fin cfg.numPages} (hi : (k'.pages i).flags = pageFree) :
    (k.pages i).flags = pageFree := by
  induction calls generalizing k with
  | nil =>
    cases h
    exact hi
  | cons c calls ih =>
    obtain ⟨k₁, h₁, h⟩ := mapPages_cons hmmu h
    exact mapPageLevel_pages h₁ (ih h)

section

variable (hplaced : Placed cfg) (hmmu : cfg.mmu = true)
include hplaced hmmu

/-- The calls set the entries of their pages, the last one for a page prevailing. -/
theorem mapPages_entry {F : Set (Fin cfg.numPages)} {calls : List PageMapping} (hr : root r = some t)
    (htables : PageTables k.pte root) (hspare : Spare F k root) (h : mapPages t calls k = .ok () k')
    (hF : ∀ i, (k.pages i).flags = pageFree → (k'.pages i).flags ≠ pageFree → i ∈ F) :
    PageTables k'.pte root ∧ ∀ va, sv39.entry k'.pte root r (vpns va 3) =
      (lastFor calls va).elim (sv39.entry k.pte root r (vpns va 3)) fun c => leafPte c.pa c.perm := by
  induction calls generalizing k with
  | nil =>
    cases h
    exact ⟨htables, fun _ => rfl⟩
  | cons c calls ih =>
    obtain ⟨k₁, h₁, h⟩ := mapPages_cons hmmu h
    obtain ⟨k₂, hgrows, hsets⟩ := mapPageLevel_ok hplaced hmmu c.grants htables hspare le_rfl hr h₁
      fun i hi hi' => hF i hi fun hfree => hi' (mapPages_pages hmmu h hfree)
    have hspare₁ : Spare F k₁ root := by
      intro i u hi hfree hu r' p hp
      rw [hsets.node hp]
      rw [hsets.pages] at hfree
      exact hgrows.spare hi hfree hu hp
    obtain ⟨htables', hentry⟩ := ih hsets.tables hspare₁ h
      fun i hi hi' => hF i (mapPageLevel_pages h₁ hi) hi'
    refine ⟨htables', fun va => ?_⟩
    rw [hentry, lastFor_cons]
    cases lastFor calls va with
    | some _ => rfl
    | none =>
      -- No later call is for the page: its entry is what this one left.
      rw [Option.elim_none, Option.none_or]
      split_ifs with hsame
      · rw [← vpns_eq_iff.2 hsame, hsets.entry_self]
        rfl
      · rw [hsets.entry (length_vpns va 3) fun hva => hsame (vpns_eq_iff.1 hva.2.symm),
          hgrows.entry (length_vpns va 3)]
        rfl

/-- After any calls of `map_page_sv39` on a zeroed table, with no page taken that
    is the table itself, addresses translate by the last call for their page. -/
theorem va2pa_mapPages {pt : ℕ} (hpt : 4096 ∣ pt) (hzero : ∀ n < 512, k.pte (pt + 8 * n) = 0)
    {calls : List PageMapping} (h : mapPages pt calls k = .ok () k')
    (hdistinct : ∀ i, (k.pages i).flags = pageFree → (k'.pages i).flags ≠ pageFree →
      cfg.pagePtr i ≠ pt)
    (va : ℕ) :
    match lastFor calls va with
    | none => leaf k'.pte pt va = none ∧ va2pa k' pt va = 0
    | some c => va2pa k' pt va = c.pa + pageOffs cfg va ∧
        ∃ e, leaf k'.pte pt va = some e ∧ permMask e = c.perm ||| pteA ||| pteD ||| pteV := by
  set root : Unit → Option TablePage := fun _ => some ⟨pt, hpt⟩ with hroot
  have hbare : ∀ t, root () = some t → ∀ i, k.pte (sv39.slot t i) = 0 := by
    rintro t ht i
    obtain rfl := Option.some.inj ht
    exact hzero i i.2
  -- At first the only table is the root.
  have honly : ∀ {p u}, sv39.node k.pte root () p = some u → p = [] ∧ u = pt := by
    intro p u hu
    cases p with
    | nil => exact ⟨rfl, congrArg Subtype.val (Option.some.inj hu).symm⟩
    | cons i p => exact nomatch (node_of_zero hbare i p).symm.trans hu
  have htables : PageTables k.pte root := by
    refine ⟨fun _ p _ p' u _ _ hu hu' => ⟨rfl, ?_⟩, fun _ p _ => .inl (entry_of_zero hbare p),
      fun _ p _ => .inl (entry_of_zero hbare p)⟩
    rw [(honly hu).1, (honly hu').1]
  have hspare : Spare {i | cfg.pagePtr i ≠ pt} k root := by
    intro i u hi _ hu _ p _ hp
    exact hi (hu.symm.trans (honly hp).2)
  obtain ⟨htables', hentry⟩ := mapPages_entry (r := ()) hplaced hmmu rfl htables hspare h hdistinct
  have hleaf := leaf_eq (r := ()) htables' rfl va
  rw [hentry va, entry_of_zero hbare] at hleaf
  cases hlast : lastFor calls va with
  | none =>
    rw [hlast, Option.elim_none, if_pos rfl] at hleaf
    refine ⟨hleaf, ?_⟩
    rw [va2pa, if_pos hmmu, hleaf]
  | some c =>
    rw [hlast, Option.elim_some, if_neg (isLeaf_leafPte c.grants).ne_zero] at hleaf
    refine ⟨?_, _, hleaf, ?_⟩
    · have hva : sv39.entry k'.pte root () (vpns va 3) = leafPte c.pa c.perm := by
        rw [hentry va, hlast, Option.elim_some]
      exact va2pa_of_entry (t := ⟨pt, hpt⟩) hmmu htables' rfl c.pa_lt c.dvd_pa c.grants hva
    · rw [leafPte_eq, permMask_or (leafFlags_lt c.grants.lt), leafFlags]

end

theorem grants_permUdata : Grants permUdata := ⟨by decide, by decide⟩

/-- A stack page is mapped with its guard page, and then another one in its
    place, as by `proc_execv`. -/
def stackTwice : List PageMapping :=
  [⟨0x80013000, 0x1ff000, permUdata, 0, by decide, by decide, by decide, by decide⟩,
    ⟨0, 0x1fe000, permKdata, 0, by decide, by decide, by decide, by decide⟩,
    ⟨0x80014000, 0x1ff000, permUdata, 0, by decide, by decide, by decide, by decide⟩]

/-- In a table that is the first page of the `virt` build, the stack translates
    to the second page, and the addresses below the guard page to nothing. -/
theorem stackTwice_translate : ∃ k', mapPages 0x8000f000 stackTwice
      ((initKernel .qemuVirt fun _ => 0).takePage ⟨0, by decide⟩ 0) = .ok () k' ∧
    va2pa k' 0x8000f000 0x1ff123 = 0x80014123 ∧ va2pa k' 0x8000f000 0x1fd000 = 0 := by
  obtain ⟨k', h⟩ := value_eq_some (r := mapPages 0x8000f000 stackTwice
    ((initKernel .qemuVirt fun _ => 0).takePage ⟨0, by decide⟩ 0)) (a := ()) (by decide +kernel)
  have hplaced : Placed .qemuVirt := ⟨by decide, by decide, by decide, by decide, by decide⟩
  have htaken : ∀ i,
      ((((initKernel .qemuVirt fun _ => 0).takePage ⟨0, by decide⟩ 0).pages i).flags = pageFree →
      (k'.pages i).flags ≠ pageFree → Config.qemuVirt.pagePtr i ≠ 0x8000f000) := by
    intro i hi _ hptr
    obtain rfl : i = ⟨0, by decide⟩ := pagePtr_inj (hptr.trans (by decide))
    exact absurd hi (by decide)
  have htranslate := va2pa_mapPages hplaced rfl (by decide) (fun _ _ => rfl) h htaken
  exact ⟨k', h, (htranslate 0x1ff123).1, (htranslate 0x1fd000).2⟩

end HobbyOs
