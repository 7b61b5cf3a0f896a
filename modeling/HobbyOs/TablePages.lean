import Mathlib.Data.Finset.Union
import HobbyOs.OwnedTables

/-!
# How many pages a page table takes

`map_page_sv39` takes a page for each table that is missing on the way of the
address. So calls of it take as many pages as there are paths to tables on the
ways of their addresses, but for those that have a table before; with fewer free
pages the kernel panics.

* `MapsAddrs`: a computation that maps some addresses takes the pages for the
  tables that are missing (`makesTables_mapPageSv39`), and so do several in turn
  (`MapsAddrs.bind`, `MapsAddrs.forM`);
* `initProcPages_iff`: a process gets its pages if and only if as many are free as
  `forkPages` counts.
-/

namespace HobbyOs

open Outcome Radix

variable {cfg : Config} {k k' k₁ : Kernel cfg} {t u : TablePage} {S S' : Finset (List (Fin 512))}
  {p q : List (Fin 512)} {pa va perm pid level : ℕ} {vas vas' : List ℕ}

/-! ## Paths -/

/-- The paths to the tables on the way of an address, below its table of a level. -/
def pathsBelow (va : ℕ) : ℕ → Finset (List (Fin 512))
  | 0 => ∅
  | level + 1 => {vpns va (2 - level)} ∪ pathsBelow va level

/-- The paths to the tables, below the root, on the ways of some addresses. -/
def tablePaths (vas : List ℕ) : Finset (List (Fin 512)) := vas.toFinset.biUnion fun va => pathsBelow va 2

theorem mem_pathsBelow (hlevel : level ≤ 2) :
    p ∈ pathsBelow va level ↔ ∃ n, 2 - level < n ∧ n ≤ 2 ∧ p = vpns va n := by
  induction level with
  | zero =>
    simp only [pathsBelow, Finset.notMem_empty, false_iff]
    rintro ⟨n, hlt, hle, -⟩
    omega
  | succ level ih =>
    rw [pathsBelow, Finset.mem_union, Finset.mem_singleton, ih (by omega)]
    constructor
    · rintro (rfl | ⟨n, hlt, hle, rfl⟩)
      · exact ⟨2 - level, by omega, by omega, rfl⟩
      · exact ⟨n, by omega, hle, rfl⟩
    · rintro ⟨n, hlt, hle, rfl⟩
      rcases (show 2 - level ≤ n by omega).eq_or_lt with rfl | hlt
      · exact .inl rfl
      · exact .inr ⟨n, hlt, hle, rfl⟩

theorem tablePaths_singleton : tablePaths [va] = pathsBelow va 2 := by simp [tablePaths]

theorem tablePaths_append : tablePaths (vas ++ vas') = tablePaths vas ∪ tablePaths vas' := by
  rw [tablePaths, List.toFinset_append, Finset.union_biUnion]
  rfl

/-- A path to a table has at most two indices, and is not that of the root. -/
theorem length_of_mem_tablePaths (h : p ∈ tablePaths vas) : 0 < p.length ∧ p.length ≤ 2 := by
  obtain ⟨va, -, hp⟩ := Finset.mem_biUnion.1 h
  obtain ⟨n, hlt, hle, rfl⟩ := (mem_pathsBelow le_rfl).1 hp
  rw [length_vpns]
  exact ⟨hlt, hle⟩

/-- The paths of `S` that have no table. -/
def missing (t : TablePage) (S : Finset (List (Fin 512))) (k : Kernel cfg) : Finset (List (Fin 512)) :=
  S.filter fun p => sv39.node k.pte (single t) () p = none

/-! ## Taking pages for tables -/

/-- The page table at `t` is in order, and no free page is one of its tables. -/
structure Tabled (t : TablePage) (k : Kernel cfg) : Prop where
  tables : PageTables k.pte (single t)
  spare : Spare Set.univ k (single t)
  lock : k.held .pagedMemory = false

/-- Pages were taken for the tables of the paths of `S` that were missing. -/
structure TakesTables (t : TablePage) (S : Finset (List (Fin 512))) (k k' : Kernel cfg) : Prop where
  tabled : Tabled t k'
  node : ∀ ⦃p⦄, p.length ≤ 2 →
    (sv39.node k'.pte (single t) () p = none ↔ sv39.node k.pte (single t) () p = none ∧ p ∉ S)
  free : countFreePages k' + (missing t S k).card = countFreePages k

/-- What is missing is missing at first, or is missing once the first tables are
    there. -/
theorem TakesTables.missing_union (h : TakesTables t S k k') (hS' : ∀ p ∈ S', p.length ≤ 2) :
    (missing t (S ∪ S') k).card = (missing t S k).card + (missing t S' k').card := by
  have hunion : missing t (S ∪ S') k = missing t S k ∪ missing t S' k' := by
    ext p
    simp only [missing, Finset.mem_union, Finset.mem_filter]
    by_cases hp : p ∈ S'
    · rw [h.node (hS' p hp)]
      tauto
    · tauto
  rw [hunion, Finset.card_union_of_disjoint]
  refine Finset.disjoint_left.2 fun p hp hp' => ?_
  obtain ⟨hpS, -⟩ := Finset.mem_filter.1 hp
  obtain ⟨hpS', hnode⟩ := Finset.mem_filter.1 hp'
  exact ((h.node (hS' p hpS')).1 hnode).2 hpS

theorem TakesTables.trans (h : TakesTables t S k k₁) (h' : TakesTables t S' k₁ k')
    (hS' : ∀ p ∈ S', p.length ≤ 2) :
    TakesTables t (S ∪ S') k k' where
  tabled := h'.tabled
  node p hp := by
    rw [h'.node hp, h.node hp, Finset.mem_union]
    tauto
  free := by
    rw [h.missing_union hS']
    have := h.free
    have := h'.free
    omega

/-- Nothing changes if there is a table already. -/
theorem TakesTables.of_some (h : Tabled t k) (hq : sv39.node k.pte (single t) () q ≠ none) :
    TakesTables t {q} k k where
  tabled := h
  node p _ := by
    rw [Finset.mem_singleton]
    refine ⟨fun hp => ⟨hp, ?_⟩, And.left⟩
    rintro rfl
    exact hq hp
  free := by simp [missing, Finset.filter_singleton, hq]

/-- A page is taken for a table. -/
theorem growTable_takes (hplaced : Placed cfg) (hmmu : cfg.mmu = true) (pid : ℕ) (h : Tabled t k)
    (hlevel : level + 1 ≤ 2)
    (hu : sv39.node k.pte (single t) () (vpns va (2 - (level + 1))) = some u)
    (hzero : k.pte (u + 8 * vpn va (level + 1)) = 0) {i : Fin cfg.numPages} (hi : freePage k = some i) :
    TakesTables t {vpns va (2 - level)} k (k.growTable u (vpn va (level + 1)) i pid) ∧
      sv39.node (k.growTable u (vpn va (level + 1)) i pid).pte (single t) () (vpns va (2 - level)) =
        some ⟨cfg.pagePtr i, (pagePtr_page hplaced hmmu i).1⟩ := by
  have hfree := mem_freePages.1 (freePage_mem hi)
  set v : TablePage := ⟨cfg.pagePtr i, (pagePtr_page hplaced hmmu i).1⟩
  set k₁ := k.growTable u (vpn va (level + 1)) i pid
  have hgrows : GrowsTables Set.univ (single t) () k k₁ ∧
      sv39.node k₁.pte (single t) () (vpns va (2 - level)) = some v :=
    growTable_grows hplaced hmmu h.tables h.spare hlevel hu hzero hfree trivial rfl
  have hat :=
    growTable_growsAt hplaced hmmu pid h.tables hlevel hu hzero (h.spare trivial hfree rfl) (u := v) rfl
  have hnone := hat.node_none
  rw [← vpns_succ va hlevel] at hnone
  refine ⟨⟨⟨hgrows.1.tables, hgrows.1.spare, h.lock⟩, fun p hp => ?_, ?_⟩, hgrows.2⟩
  · have hnode := hat.node () hp
    rw [← vpns_succ va hlevel] at hnode
    rw [Finset.mem_singleton]
    by_cases hpq : p = vpns va (2 - level)
    · rw [hnode.1 ⟨rfl, hpq⟩]
      simp [hpq]
    · rw [hnode.2 fun h => hpq h.2]
      simp [hpq]
  · -- The path had no table before, so it was one of the missing, and one page is gone.
    have htaken : countFreePages k₁ = countFreePages (k.takePage i pid) :=
      countFreePages_congr rfl
    rw [missing, Finset.filter_singleton, if_pos hnone, Finset.card_singleton, htaken,
      countFreePages_takePage pid hi]

/-- The entry of the last level is set: no page is taken. -/
theorem setPte_takes (h : Tabled t k) (hperm : Grants perm)
    (hu : sv39.node k.pte (single t) () (vpns va 2) = some u) :
    TakesTables t ∅ k { k with pte := Function.update k.pte (u + 8 * vpn va 0) (leafPte pa perm) } := by
  have hsets : SetsEntry (single t) () va (leafPte pa perm) k _ :=
    setPte_sets h.tables (isLeaf_leafPte hperm) hu
  refine ⟨⟨hsets.tables, fun i v hi hfree hv r p hp => ?_, h.lock⟩, fun p hp => ?_, ?_⟩
  · rw [hsets.node hp]
    exact h.spare hi hfree hv hp
  · rw [hsets.node hp]
    simp
  · exact countFreePages_congr rfl

/-- One level of `map_page_sv39`: the table that it goes on in is there, or is in a
    page taken for it; or there is no page left. -/
theorem mapPageLevel_step (hplaced : Placed cfg) (hmmu : cfg.mmu = true) (pa perm pid : ℕ) (h : Tabled t k)
    (hlevel : level + 1 ≤ 2)
    (hu : sv39.node k.pte (single t) () (vpns va (2 - (level + 1))) = some u) :
    (∃ (k₁ : Kernel cfg) (v : TablePage), TakesTables t {vpns va (2 - level)} k k₁ ∧
      sv39.node k₁.pte (single t) () (vpns va (2 - level)) = some v ∧
      mapPageLevel pa va perm pid (level + 1) u k = mapPageLevel pa va perm pid level v k₁) ∨
    (countFreePages k = 0 ∧ sv39.node k.pte (single t) () (vpns va (2 - level)) = none ∧
      ∀ k', mapPageLevel pa va perm pid (level + 1) u k ≠ .ok () k') := by
  have hnode : sv39.node k.pte (single t) () (vpns va (2 - level)) =
      sv39.next (k.pte (u + 8 * vpn va (level + 1))) := by
    rw [vpns_succ va hlevel, node_cons, entry_of_node hu]
    rfl
  -- An empty entry needs a page for the next table, one that is set is followed.
  by_cases hzero : k.pte (u + 8 * vpn va (level + 1)) = 0
  · rw [hzero, sv39.next_zero] at hnode
    cases hi : freePage k with
    | none =>
      refine .inr ⟨?_, hnode, fun k' hk' => ?_⟩
      · rw [countFreePages_eq, freePage_eq_none.1 hi, Finset.card_empty]
      · have halloc : (kalloc pid : KM cfg _) k = .ok none k := by rw [kalloc_apply h.lock, hi]
        rw [mapPageLevel, get_bind_apply] at hk'
        cases ((congrFun (if_pos hzero) k).trans (bind_ok halloc)).symm.trans hk'
    | some i =>
      obtain ⟨htakes, hv⟩ := growTable_takes hplaced hmmu pid h hlevel hu hzero hi
      refine .inl ⟨_, _, htakes, hv, ?_⟩
      have halloc : (kalloc pid : KM cfg _) k = .ok (some (cfg.pagePtr i)) (k.takePage i pid) := by
        rw [kalloc_apply h.lock, hi]
      rw [mapPageLevel, get_bind_apply]
      exact (congrFun (if_pos hzero) k).trans (bind_ok halloc)
  · rw [sv39_next hzero] at hnode
    refine .inl ⟨k, _, .of_some h (by simp [hnode]), hnode, ?_⟩
    rw [mapPageLevel, get_bind_apply]
    exact congrFun (if_neg hzero) k

/-- `map_page_sv39` from a level down takes the pages for the tables that are missing,
    or does not return. -/
theorem mapPageLevel_takes (hplaced : Placed cfg) (hmmu : cfg.mmu = true) (h : Tabled t k) (hperm : Grants perm)
    (hlevel : level ≤ 2) (hu : sv39.node k.pte (single t) () (vpns va (2 - level)) = some u) :
    (∃ k', mapPageLevel pa va perm pid level u k = .ok () k' ∧ TakesTables t (pathsBelow va level) k k') ∨
      (countFreePages k < (missing t (pathsBelow va level) k).card ∧
        ∀ k', mapPageLevel pa va perm pid level u k ≠ .ok () k') := by
  induction level generalizing u k with
  | zero => exact .inl ⟨_, rfl, setPte_takes h hperm hu⟩
  | succ level ih =>
    have hshort : ∀ p ∈ pathsBelow va level, p.length ≤ 2 := by
      intro p hp
      obtain ⟨n, -, hle, rfl⟩ := (mem_pathsBelow (by omega)).1 hp
      rwa [length_vpns]
    rw [pathsBelow]
    rcases mapPageLevel_step hplaced hmmu pa perm pid h hlevel hu with
      ⟨k₁, v, htakes, hv, hrun⟩ | ⟨hzero, hnone, hfails⟩
    · rw [hrun]
      rcases ih htakes.tabled (by omega) hv with ⟨k', hk', htakes'⟩ | ⟨hlt, hfails⟩
      · exact .inl ⟨k', hk', htakes.trans htakes' hshort⟩
      · refine .inr ⟨?_, hfails⟩
        rw [htakes.missing_union hshort]
        have := htakes.free
        omega
    · refine .inr ⟨?_, hfails⟩
      rw [hzero, Finset.card_pos]
      exact ⟨_, Finset.mem_filter.2 ⟨Finset.mem_union_left _ (Finset.mem_singleton_self _), hnone⟩⟩

/-! ## Several mappings -/

/-- The computation maps the addresses: it takes the pages for the tables on their
    ways that are missing, or does not return when there are fewer. -/
def MapsAddrs (t : TablePage) (vas : List ℕ) (c : KM cfg Unit) : Prop :=
  ∀ k, Tabled t k → (∃ k', c k = .ok () k' ∧ TakesTables t (tablePaths vas) k k') ∨
    (countFreePages k < (missing t (tablePaths vas) k).card ∧ ∀ k', c k ≠ .ok () k')

namespace MapsAddrs

variable {c c' : KM cfg Unit}

theorem mapPageSv39 (hplaced : Placed cfg) (hmmu : cfg.mmu = true) (hperm : Grants perm) :
    MapsAddrs t [va] (HobbyOs.mapPageSv39 t pa va perm pid : KM cfg Unit) := by
  intro k h
  rw [tablePaths_singleton, mapPageSv39_of_mmu hmmu]
  exact mapPageLevel_takes hplaced hmmu h hperm le_rfl rfl

theorem bind (h : MapsAddrs t vas c) (h' : MapsAddrs t vas' c') :
    MapsAddrs t (vas ++ vas') (c >>= fun _ => c') := by
  intro k hk
  have hshort : ∀ p ∈ tablePaths vas', p.length ≤ 2 := fun p hp => (length_of_mem_tablePaths hp).2
  rw [tablePaths_append]
  rcases h k hk with ⟨k₁, h₁, htakes⟩ | ⟨hlt, hfails⟩
  · rw [bind_ok h₁]
    rcases h' k₁ htakes.tabled with ⟨k', hk', htakes'⟩ | ⟨hlt, hfails⟩
    · exact .inl ⟨k', hk', htakes.trans htakes' hshort⟩
    · refine .inr ⟨?_, hfails⟩
      rw [htakes.missing_union hshort]
      have := htakes.free
      omega
  · refine .inr ⟨hlt.trans_le (Finset.card_le_card ?_), fun k' hk' => ?_⟩
    · exact Finset.filter_subset_filter _ Finset.subset_union_left
    · obtain ⟨_, k₁, h₁, -⟩ := bind_eq_ok.1 hk'
      exact hfails k₁ h₁

theorem forM {ι : Type} {f : ι → KM cfg Unit} {va : ι → ℕ}
    (h : ∀ x, MapsAddrs t [va x] (f x)) (l : List ι) :
    MapsAddrs t (l.map va) (l.forM f) := by
  induction l with
  | nil =>
    exact fun k hk => .inl ⟨k, rfl, hk, fun _ _ => by simp [tablePaths], by simp [tablePaths, missing]⟩
  | cons x l ih => exact (h x).bind ih

theorem mapRange (hplaced : Placed cfg) (hmmu : cfg.mmu = true) (hperm : Grants perm) {n : ℕ} :
    MapsAddrs t ((List.range n).map fun i => va + i * cfg.pageSize)
    (HobbyOs.mapRange t pa va perm pid n : KM cfg Unit) :=
  forM (fun _ => mapPageSv39 hplaced hmmu hperm) _

end MapsAddrs

/-! ## The page table of a process -/

/-- The addresses that `init_proc` maps for a process. -/
def userVas (cfg : Config) : List ℕ :=
  [cfg.ramStart, cfg.kernelCodeStart, cfg.pageRoundDown cfg.trapFrameAddr,
    cfg.pageRoundDown cfg.pagedMemoryAddr] ++
    (List.range cfg.rodataPages).map (fun i => cfg.usrVirt cfg.rodataStart + i * cfg.pageSize) ++
    (List.range cfg.userCodePages).map (fun i => cfg.usrVirt cfg.userCodeStart + i * cfg.pageSize) ++
    [topmostVirtPage, guardPage cfg]

/-- How many pages a process takes: its stacks, and with an MMU its page table, which
    is a root and a table for each path. -/
def forkPages (cfg : Config) : ℕ := if cfg.mmu then 3 + (tablePaths (userVas cfg)).card else 2

/-- Two tables for the code and the data, and two for the stack. -/
example : forkPages .qemuVirt = 7 := by decide +kernel

/-- A page that has been cleared is a page table without entries: all its tables are
    missing. -/
theorem tabled_cleared {i : Fin cfg.numPages} (halloc : (k.pages i).flags ≠ pageFree)
    (hl : k.held .pagedMemory = false) (hi : cfg.pagePtr i = t)
    (hzero : ∀ n < 512, k.pte (t + 8 * n) = 0) (vas : List ℕ) :
    Tabled t k ∧ missing t (tablePaths vas) k = tablePaths vas := by
  have howned : Owned k (single t) := .zeroed hi halloc hzero
  refine ⟨⟨howned.tables, howned.spare, hl⟩, Finset.filter_true_of_mem fun p hp => ?_⟩
  have hbare : ∀ u, single t () = some u → ∀ n, k.pte (sv39.slot u n) = 0 := by
    intro u hu n
    obtain rfl := Option.some.inj hu
    exact hzero n n.2
  cases p with
  | nil => exact absurd (length_of_mem_tablePaths hp).1 (Nat.lt_irrefl 0)
  | cons n p => exact node_of_zero hbare n p

/-- What `init_user_page_table` and `map_stack` map, once the root is cleared. -/
def userMappings (pt sp pid : ℕ) : KM cfg Unit := do
  mapPageSv39 pt cfg.ramStart cfg.ramStart permKdata pid
  mapPageSv39 pt cfg.kernelCodeStart cfg.kernelCodeStart permKcode pid
  mapPageSv39 pt (cfg.pageRoundDown cfg.trapFrameAddr) (cfg.pageRoundDown cfg.trapFrameAddr) permKdata pid
  mapPageSv39 pt (cfg.pageRoundDown cfg.pagedMemoryAddr) (cfg.pageRoundDown cfg.pagedMemoryAddr) permKdata pid
  mapRange pt cfg.rodataStart (cfg.usrVirt cfg.rodataStart) permUrodata pid cfg.rodataPages
  mapRange pt cfg.userCodeStart (cfg.usrVirt cfg.userCodeStart) permUcode pid cfg.userCodePages
  mapStack pt sp pid

theorem initUserPageTable_bind (hmmu : cfg.mmu = true) {β : Type} {pt sp pid : ℕ} {f : Unit → KM cfg β} :
    (initUserPageTable pt pid >>= fun _ => mapStack pt sp pid >>= f) =
      (clearTable pt >>= fun _ => userMappings pt sp pid >>= f) := by
  simp [initUserPageTable, userMappings, hmmu]

theorem mapsAddrs_userMappings (hplaced : Placed cfg) (hmmu : cfg.mmu = true) (sp pid : ℕ) :
    MapsAddrs t (userVas cfg) (userMappings t sp pid : KM cfg Unit) := by
  have hkdata : Grants permKdata := ⟨by decide, by decide⟩
  have hkcode : Grants permKcode := ⟨by decide, by decide⟩
  have hurodata : Grants permUrodata := ⟨by decide, by decide⟩
  have hucode : Grants permUcode := ⟨by decide, by decide⟩
  have hvas : userVas cfg = [cfg.ramStart] ++
      ([cfg.kernelCodeStart] ++ ([cfg.pageRoundDown cfg.trapFrameAddr] ++
      ([cfg.pageRoundDown cfg.pagedMemoryAddr] ++
        ((List.range cfg.rodataPages).map (fun i => cfg.usrVirt cfg.rodataStart + i * cfg.pageSize) ++
          ((List.range cfg.userCodePages).map (fun i => cfg.usrVirt cfg.userCodeStart + i * cfg.pageSize) ++
            ([topmostVirtPage] ++ [guardPage cfg])))))) := by simp [userVas]
  rw [hvas]
  refine .bind (.mapPageSv39 hplaced hmmu hkdata) (.bind (.mapPageSv39 hplaced hmmu hkcode) ?_)
  refine .bind (.mapPageSv39 hplaced hmmu hkdata) (.bind (.mapPageSv39 hplaced hmmu hkdata) ?_)
  refine .bind (.mapRange hplaced hmmu hurodata) (.bind (.mapRange hplaced hmmu hucode) ?_)
  exact .bind (.mapPageSv39 hplaced hmmu grants_permUdata) (.mapPageSv39 hplaced hmmu hkdata)

/-- The page table of a process is made, if and only if there are pages for its tables. -/
theorem userTable_iff {i : Fin cfg.numPages} (hplaced : Placed cfg) (hmmu : cfg.mmu = true)
    (halloc : (k.pages i).flags ≠ pageFree) (hl : k.held .pagedMemory = false)
    {β : Type} (sp pid : ℕ) (b : β) :
    value
      ((initUserPageTable (cfg.pagePtr i) pid >>= fun _ => mapStack (cfg.pagePtr i) sp pid >>= fun _ => pure b :
      KM cfg β) k) = some b ↔ (tablePaths (userVas cfg)).card ≤ countFreePages k := by
  set t : TablePage := ⟨cfg.pagePtr i, (pagePtr_page hplaced hmmu i).1⟩
  set k₁ : Kernel cfg := { k with pte := fun a => if t.1 ≤ a ∧ a < t + cfg.pageSize then 0 else k.pte a }
  have hrun :
      (initUserPageTable (cfg.pagePtr i) pid >>= fun _ => mapStack (cfg.pagePtr i) sp pid >>= fun _ => pure b :
      KM cfg β) k = (userMappings t sp pid >>= fun _ => pure b : KM cfg β) k₁ := by
    rw [initUserPageTable_bind hmmu, clearTable, modify_bind_apply]
  have hzero : ∀ n < 512, k₁.pte (t + 8 * n) = 0 := by
    intro n hn
    refine if_pos ⟨Nat.le_add_right _ _, ?_⟩
    rw [cfg.pageSize_of_mmu hmmu]
    omega
  obtain ⟨htabled, hmissing⟩ := tabled_cleared (k := k₁) halloc hl rfl hzero (userVas cfg)
  have hmaps := mapsAddrs_userMappings hplaced hmmu sp pid k₁ htabled
  have hfree : countFreePages k₁ = countFreePages k := countFreePages_congr rfl
  -- Nothing is mapped in a cleared table, so all the tables of the paths are missing.
  rw [hmissing, hfree] at hmaps
  rw [hrun]
  rcases hmaps with ⟨k', hk', htakes⟩ | ⟨hlt, hfails⟩
  · have hle := htakes.free
    rw [hmissing, hfree] at hle
    rw [bind_ok hk']
    exact iff_of_true rfl (by omega)
  · refine iff_of_false (fun hvalue => ?_) (by omega)
    obtain ⟨k', hk'⟩ := value_eq_some hvalue
    obtain ⟨_, k₂, h₂, -⟩ := bind_eq_ok.1 hk'
    exact hfails k₂ h₂

/-- `kalloc` takes a page, if one is free. -/
theorem kalloc_takes (hl : k.held .pagedMemory = false) (h : 0 < countFreePages k) (pid : ℕ) :
    ∃ i, freePage k = some i ∧ kalloc pid k = .ok (some (cfg.pagePtr i)) (k.takePage i pid) ∧
      countFreePages (k.takePage i pid) + 1 = countFreePages k := by
  cases hi : freePage k with
  | none =>
    rw [countFreePages_eq, freePage_eq_none.1 hi, Finset.card_empty] at h
    exact absurd h (Nat.lt_irrefl 0)
  | some i => exact ⟨i, rfl, by rw [kalloc_apply hl, hi], countFreePages_takePage pid hi⟩

/-- The pages that a process has taken, when it has them. -/
theorem forkPages_le {o : ℕ × ℕ} (hplaced : cfg.mmu = true → Placed cfg)
    (hl : k.held .pagedMemory = false)
    {q : Slot cfg} (h : TakesPages q k o k') : forkPages cfg ≤ countFreePages k := by
  unfold forkPages
  cases h with
  | noMmu hmmu hi hj =>
    rw [hmmu, if_neg Bool.false_ne_true]
    have hsp := countFreePages_takePage (k.procs q).pid hi
    have hksp := countFreePages_takePage (k.procs q).pid hj
    omega
  | @mmu i j l k₁ k' hmmu hi hj ht htable hstack =>
    rw [hmmu, if_pos rfl]
    have hsp := countFreePages_takePage (k.procs q).pid hi
    have hksp := countFreePages_takePage (k.procs q).pid hj
    have hpt := countFreePages_takePage (k.procs q).pid ht
    set k₃ := ((k.takePage i (k.procs q).pid).takePage j (k.procs q).pid).takeTable q l (k.procs q).pid
    have halloc : (k₃.pages l).flags ≠ pageFree := takePage_flags_ne
    have htables := (userTable_iff (hplaced hmmu) hmmu halloc hl (cfg.pagePtr i) (k.procs q).pid ()).1 (by
      rw [bind_ok htable, bind_ok hstack]
      rfl)
    have hcount : countFreePages k₃ =
        countFreePages
          (((k.takePage i (k.procs q).pid).takePage j (k.procs q).pid).takePage l (k.procs q).pid) :=
      countFreePages_congr rfl
    omega

/-- A process gets its pages, if and only if there are as many. -/
theorem initProcPages_iff {q : Slot cfg} (hplaced : cfg.mmu = true → Placed cfg)
    (hl : k.held .pagedMemory = false) :
    (value (initProcPages q k)).join.isSome = true ↔ forkPages cfg ≤ countFreePages k := by
  constructor
  · intro h
    obtain ⟨o, ho⟩ := Option.isSome_iff_exists.1 h
    obtain ⟨k', hk'⟩ := value_eq_some (Option.join_eq_some_iff.1 ho)
    exact forkPages_le hplaced hl (initProcPages_ok hk')
  · intro h
    unfold forkPages at h
    -- Enough pages: the stacks first, then the table, then what its mappings need.
    obtain ⟨i, -, hi, hfree₁⟩ := kalloc_takes hl (by split at h <;> omega) (k.procs q).pid
    obtain ⟨j, -, hj, hfree₂⟩ :=
      kalloc_takes (k := k.takePage i (k.procs q).pid) hl (by split at h <;> omega)
      (k.procs q).pid
    rw [initProcPages, get_bind_apply, bind_ok hi]
    dsimp only
    rw [bind_ok hj]
    dsimp only
    by_cases hmmu : cfg.mmu = true
    · rw [if_pos hmmu] at h ⊢
      set k₂ := (k.takePage i (k.procs q).pid).takePage j (k.procs q).pid
      obtain ⟨l, -, ht, hfree₃⟩ := kalloc_takes (k := k₂) hl (by omega) (k.procs q).pid
      rw [bind_ok ht]
      dsimp only [modifyProc]
      rw [modify_bind_apply]
      have hcount : countFreePages (k₂.takeTable q l (k.procs q).pid) =
        countFreePages (k₂.takePage l (k.procs q).pid) := countFreePages_congr rfl
      have htables :=
        (userTable_iff (k := k₂.takeTable q l (k.procs q).pid) (hplaced hmmu) hmmu takePage_flags_ne hl
        (cfg.pagePtr i) (k.procs q).pid (some (cfg.pagePtr i, cfg.pagePtr j))).2 (by omega)
      exact congrArg (fun o => o.join.isSome) htables
    · rw [if_neg hmmu]
      rfl

end HobbyOs
