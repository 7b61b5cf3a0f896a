import HobbyOs.OwnedTables
import HobbyOs.Steady

/-!
# Freeing a page table

The pages that `free_page_table` makes free are those of the tables, and no others
(`freePageTable_exact`): the release of what the first entry of a table of the
second level leads to, when all of them have been released, releases a page again,
or none.

* `FreesPages`: a computation makes the pages at some addresses free, and does
  nothing else.
-/

namespace HobbyOs

open Outcome Radix

variable {cfg : Config} {k k₁ k' : Kernel cfg} {S S' : Set ℕ} {α : Type}

/-! ## Releasing pages -/

/-- The kernel with other pages. -/
def Kernel.withPages (k : Kernel cfg) (pages : Fin cfg.numPages → Page) : Kernel cfg :=
  { k with pages := pages }

/-- The pages at the addresses `S` are made free, and the others left alone. -/
structure Released (S : Set ℕ) (k k' : Kernel cfg) : Prop where
  rest : k' = k.withPages k'.pages
  flags : ∀ i, cfg.pagePtr i ∈ S → (k'.pages i).flags = pageFree
  others : ∀ i, cfg.pagePtr i ∉ S → k'.pages i = k.pages i
  /-- A page that was free stays free. -/
  free : ∀ i, (k.pages i).flags = pageFree → (k'.pages i).flags = pageFree

namespace Released

theorem refl : Released ∅ k k :=
  ⟨rfl, fun _ h => absurd h (Set.notMem_empty _), fun _ _ => rfl, fun _ h => h⟩

theorem trans (h : Released S k k₁) (h' : Released S' k₁ k') : Released (S ∪ S') k k' := by
  refine ⟨?_, fun i hi => ?_, fun i hi => ?_, fun i hi => h'.free i (h.free i hi)⟩
  · rw [h'.rest, h.rest]
    rfl
  · rcases hi with hi | hi
    · exact h'.free i (h.flags i hi)
    · exact h'.flags i hi
  · rw [Set.mem_union, not_or] at hi
    rw [h'.others i hi.2, h.others i hi.1]

/-- Only addresses of pages count. -/
theorem congr (h : Released S k k') (hS : ∀ i, cfg.pagePtr i ∈ S ↔ cfg.pagePtr i ∈ S') :
    Released S' k k' :=
  ⟨h.rest, fun i hi => h.flags i ((hS i).2 hi), fun i hi => h.others i fun hi' => hi ((hS i).1 hi'), h.free⟩

end Released

/-- The computation makes the pages at `S` free, and does nothing else. -/
def FreesPages (S : Set ℕ) (c : KM cfg Unit) (k : Kernel cfg) :
    Prop := ∃ k', c k = .ok () k' ∧ Released S k k'

namespace FreesPages

variable {c : KM cfg Unit}

theorem pure : FreesPages ∅ (Pure.pure () : KM cfg Unit) k := ⟨k, rfl, .refl⟩

theorem releasePage (hl : k.held .pagedMemory = false) (ptr : ℕ) :
    FreesPages {ptr} (HobbyOs.releasePage ptr) k := by
  refine ⟨_, releasePage_apply hl ptr, rfl, fun i hi => dropPage_flags hi, fun i hi =>
    dropPage_of_ne hi, fun i hi => ?_⟩
  by_cases hptr : cfg.pagePtr i = ptr
  · exact dropPage_flags hptr
  · exact (congrArg Page.flags (dropPage_of_ne hptr)).trans hi

/-- One after the other. What comes next does not depend on the pages. -/
theorem bind {f : Unit → KM cfg Unit} (hc : FreesPages S c k)
    (hf : ∀ pages, FreesPages S' (f ()) (k.withPages pages)) :
    FreesPages (S ∪ S') (c >>= f) k := by
  obtain ⟨k₁, hrun, h₁⟩ := hc
  obtain ⟨k', hrun', h'⟩ := hf k₁.pages
  rw [← h₁.rest] at hrun' h'
  exact ⟨k', (bind_ok hrun).trans hrun', h₁.trans h'⟩

theorem congr (h : FreesPages S c k) (hS : ∀ i, cfg.pagePtr i ∈ S ↔ cfg.pagePtr i ∈ S') :
    FreesPages S' c k :=
  let ⟨k', hrun, h'⟩ := h; ⟨k', hrun, h'.congr hS⟩

theorem ite {p : Prop} [Decidable p] (h : p → FreesPages S c k) :
    FreesPages {a | p ∧ a ∈ S} (if p then c else Pure.pure ()) k := by
  split_ifs with hp
  · exact (h hp).congr fun i => by simp [hp]
  · exact pure.congr fun i => by simp [hp]

/-- A loop whose turns do not depend on the pages. -/
theorem forM {T : ℕ → Set ℕ} {f : ℕ → KM cfg Unit} {l : List ℕ} (pages : Fin cfg.numPages → Page)
    (h : ∀ n ∈ l, ∀ pages, FreesPages (T n) (f n) (k.withPages pages)) :
    FreesPages {a | ∃ n ∈ l, a ∈ T n} (l.forM f) (k.withPages pages) := by
  induction l generalizing pages with
  | nil => exact (pure (k := (k.withPages pages))).congr fun i => by simp
  | cons n l ih =>
    have hturn := h n List.mem_cons_self pages
    have hloop := fun pages => ih pages fun m hm => h m (List.mem_cons_of_mem _ hm)
    exact (hturn.bind fun pages => hloop pages).congr fun i => by simp

end FreesPages

/-! ## The recursion -/

section

variable {fuel level pt : ℕ} (hptes : numPtes cfg = 512) (hl : k.held .pagedMemory = false)
include hptes hl

/-- One level of `free_page_table_r`, by what the calls for the tables below free. -/
theorem freePageTableR_level {B : ℕ → Set ℕ}
    (hbelow : ∀ n < 512, isNonleaf (k.pte (pt + 8 * n)) = true → ∀ pages,
      FreesPages (B n) (freePageTableR fuel (level + 1) (pteToPhys (k.pte (pt + 8 * n)))) (k.withPages pages)) :
    FreesPages ({a | ∃ n < 512, isNonleaf (k.pte (pt + 8 * n)) = true ∧
        (a ∈ B n ∨ level < 2 ∧ a = pteToPhys (k.pte (pt + 8 * n)))} ∪
          {a | level = 1 ∧ a = pteToPhys (k.pte pt)})
      (freePageTableR (fuel + 1) level pt) k := by
  have hturn : ∀ n ∈ List.range 512, ∀ pages, FreesPages
      {a | isNonleaf (k.pte (pt + 8 * n)) = true ∧
        a ∈ B n ∪ {a | level < 2 ∧ a ∈ ({pteToPhys (k.pte (pt + 8 * n))} : Set ℕ)}}
      (do
        let e := (← get).pte (pt + 8 * n)
        if isNonleaf e then
          freePageTableR fuel (level + 1) (pteToPhys e)
          if level < 2 then releasePage (pteToPhys e) : KM cfg Unit) (k.withPages pages) := by
    intro n hn pages
    rw [FreesPages, get_bind_apply]
    exact FreesPages.ite fun he => (hbelow n (List.mem_range.1 hn) he pages).bind fun pages =>
      FreesPages.ite fun _ => FreesPages.releasePage (k := k.withPages pages) hl _
  have hend : ∀ pages, FreesPages {a | level = 1 ∧ a ∈ ({pteToPhys (k.pte pt)} : Set ℕ)} (do
      if level = 1 then releasePage (pteToPhys ((← get).pte pt)) : KM cfg Unit) (k.withPages pages) :=
        fun pages =>
    FreesPages.ite fun _ => by
      rw [FreesPages, get_bind_apply]
      exact FreesPages.releasePage (k := k.withPages pages) hl _
  unfold freePageTableR
  rw [hptes]
  refine ((FreesPages.forM k.pages hturn).bind hend).congr fun i => ?_
  simp only [Set.mem_union, Set.mem_ofPred_eq, Set.mem_singleton_iff, List.mem_range]

/-- In a table of the last level there is nothing to free. -/
theorem freePageTableR_last (hlast : ∀ n < 512, isNonleaf (k.pte (pt + 8 * n)) = false) :
    FreesPages ∅ (freePageTableR (fuel + 1) 2 pt) k := by
  refine (freePageTableR_level (B := fun _ => ∅) hptes hl fun n hn he => ?_).congr fun i => ?_
  · rw [hlast n hn] at he
    cases he
  · simp only [Set.mem_union, Set.mem_ofPred_eq, Set.mem_empty_iff_false, iff_false, not_or]
    refine ⟨?_, by simp⟩
    rintro ⟨n, hn, he, -⟩
    rw [hlast n hn] at he
    cases he

/-- Of a table of the second level, those of the last level are freed. -/
theorem freePageTableR_second (hptr : ∀ i, cfg.pagePtr i ≠ 0)
    (hinner : ∀ n < 512, k.pte (pt + 8 * n) = 0 ∨ isNonleaf (k.pte (pt + 8 * n)) = true)
    (hlast : ∀ u, Subtable k.pte pt u → ∀ n < 512, isNonleaf (k.pte (u + 8 * n)) = false) :
    FreesPages {u | Subtable k.pte pt u} (freePageTableR (fuel + 2) 1 pt) k := by
  refine (freePageTableR_level (B := fun _ => ∅) hptes hl fun n hn he pages =>
    freePageTableR_last hptes hl (hlast _ ⟨n, hn, he, rfl⟩)).congr fun i => ?_
  simp only [Set.mem_union, Set.mem_ofPred_eq, Set.mem_empty_iff_false, false_or, Nat.one_lt_ofNat, true_and]
  constructor
  · rintro (h | h)
    · exact h
    · -- What the first entry leads to has been freed, if it leads to anything.
      rcases hinner 0 (by decide) with hzero | he
      · rw [Nat.mul_zero, Nat.add_zero] at hzero
        rw [hzero] at h
        exact absurd h (hptr i)
      · exact ⟨0, by decide, he, h⟩
  · exact .inl

/-- All tables but the root are freed. -/
theorem freePageTableR_root (hptr : ∀ i, cfg.pagePtr i ≠ 0) (h : Shaped k.pte pt) :
    FreesPages {u | Subtable k.pte pt u ∨ ∃ t, Subtable k.pte pt t ∧ Subtable k.pte t u}
      (freePageTableR (fuel + 3) 0 pt) k := by
  refine (freePageTableR_level (B := fun n => {u | Subtable k.pte (pteToPhys (k.pte (pt + 8 * n))) u}) hptes hl
    fun n hn he pages => ?_).congr fun i => ?_
  · have ht : Subtable k.pte pt (pteToPhys (k.pte (pt + 8 * n))) := ⟨n, hn, he, rfl⟩
    exact freePageTableR_second hptes hl hptr (h.second _ ht) fun u hu => h.last _ u ht hu
  · simp only [Set.mem_union, Set.mem_ofPred_eq, Nat.zero_lt_two, true_and, zero_ne_one, false_and, or_false]
    constructor
    · rintro ⟨n, hn, he, hu | hu⟩
      · exact .inr ⟨_, ⟨n, hn, he, rfl⟩, hu⟩
      · exact .inl ⟨n, hn, he, hu⟩
    · rintro (⟨n, hn, he, hu⟩ | ⟨t, ⟨n, hn, he, rfl⟩, hu⟩)
      · exact ⟨n, hn, he, .inr hu⟩
      · exact ⟨n, hn, he, .inl hu⟩

/-- `free_page_table` frees the tables of a page table. -/
theorem freePageTable_frees (hmmu : cfg.mmu = true) (hptr : ∀ i, cfg.pagePtr i ≠ 0) (h : Shaped k.pte pt) :
    FreesPages {u | IsTable k.pte pt u} (freePageTable pt) k := by
  unfold freePageTable
  rw [if_pos hmmu]
  refine ((freePageTableR_root hptes hl hptr h).bind fun pages =>
    FreesPages.releasePage (k := k.withPages pages) hl pt).congr fun i => ?_
  simp only [Set.mem_union, Set.mem_ofPred_eq, Set.mem_singleton_iff, IsTable]
  exact or_comm

end

/-- `free_page_table` makes free the pages of a page table, each of which was
    allocated, and leaves the others alone; so what a table maps is left alone if it
    is not a table itself. -/
theorem freePageTable_exact {pt : ℕ} (hplaced : Placed cfg) (hr : RoundsUp cfg) (hmmu : cfg.mmu = true)
    (hxlen : cfg.xlen = 64) (h : Built pt k) (hl : k.held .pagedMemory = false) :
    ∃ k', freePageTable pt k = .ok () k' ∧
      (∀ u, IsTable k.pte pt u → ∃ i, cfg.pagePtr i = u ∧ (k.pages i).flags ≠ pageFree ∧
        (k'.pages i).flags = pageFree) ∧
      (∀ i, ¬IsTable k.pte pt (cfg.pagePtr i) → k'.pages i = k.pages i) ∧
      (∀ va e i, leaf k.pte pt va = some e → pteToPhys e = cfg.pagePtr i →
        ¬IsTable k.pte pt (pteToPhys e) →
        k'.pages i = k.pages i) ∧
      k' = k.withPages k'.pages := by
  obtain ⟨hpt, howned⟩ := h.owned hplaced hmmu
  have hptes : numPtes cfg = 512 := by
    rw [numPtes, Config.regSz, hxlen, cfg.pageSize_of_mmu hmmu]
  have hptr : ∀ i, cfg.pagePtr i ≠ 0 := fun i hi => by
    have := (pagePtr_bounds hplaced hr i).2.1
    omega
  obtain ⟨k', hrun, hfreed⟩ := freePageTable_frees hptes hl hmmu hptr (howned.tables.shaped (r := ()) rfl)
  refine ⟨k', hrun, fun u hu => ?_, fun i hi => hfreed.others i hi, fun va e i _ he htable => ?_,
    hfreed.rest⟩
  · obtain ⟨p, hp, hnode⟩ :=
      (isTable_iff (u := ⟨u, isTable_dvd hpt hu⟩) howned.tables (r := ()) rfl).1 hu
    obtain ⟨i, hi, halloc⟩ := howned.pages hp hnode
    refine ⟨i, hi.symm, halloc, hfreed.flags i ?_⟩
    rw [← hi]
    exact hu
  · exact hfreed.others i (he ▸ htable)

/-- The table with the stack page and its guard page is freed. -/
theorem stackTwice_freed : ∃ k k', mapPages 0x8000f000 stackTwice
      ((initKernel .qemuVirt fun _ => 0).takePage ⟨0, by decide⟩ 0) = .ok () k ∧
    freePageTable 0x8000f000 k = .ok () k' ∧
      (∀ u, IsTable k.pte 0x8000f000 u → ∃ i, Config.qemuVirt.pagePtr i = u ∧
        (k.pages i).flags ≠ pageFree ∧
        (k'.pages i).flags = pageFree) ∧
      (∀ i, ¬IsTable k.pte 0x8000f000 (Config.qemuVirt.pagePtr i) → k'.pages i = k.pages i) := by
  obtain ⟨_, hdo⟩ := value_eq_some
    (r := (do mapPages 0x8000f000 stackTwice; return (← get).held .pagedMemory : KM .qemuVirt Bool)
    ((initKernel .qemuVirt fun _ => 0).takePage ⟨0, by decide⟩ 0)) (a := false) (by decide +kernel)
  obtain ⟨_, k, h, hget⟩ := bind_eq_ok.1 hdo
  obtain ⟨hl, -⟩ := EStateM.Result.ok.inj (show EStateM.Result.ok (k.held .pagedMemory) k = _ from hget)
  have hplaced : Placed .qemuVirt := ⟨by decide, by decide, by decide, by decide, by decide⟩
  have hzeroed : Built 0x8000f000 ((initKernel .qemuVirt fun _ => 0).takePage ⟨0, by decide⟩ 0) :=
    .zeroed (i := ⟨0, by decide⟩) (by decide) (by decide) fun _ _ => rfl
  obtain ⟨k', hrun, htables, hothers, -⟩ :=
    freePageTable_exact hplaced (by unfold RoundsUp; decide) rfl rfl (hzeroed.mapPages rfl h) hl
  exact ⟨k, k', h, hrun, htables, hothers⟩

end HobbyOs
