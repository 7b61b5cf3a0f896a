import Mathlib.Data.Fintype.Basic
import Mathlib.Data.Fintype.Card
import HobbyOs.Steady

/-!
# Free pages

The allocator of pages by the set of pages that are free (`freePages`).

* `kalloc_apply`: a page is taken out of the set, if it has one;
* an address is that of at most one page (`pagePtr_inj`, `pageAt_eq_some`).
-/

namespace HobbyOs

open Outcome

variable {cfg : Config} {α : Type} {k k' : Kernel cfg}

/-! ## Free pages -/

/-- The pages that are free. -/
def freePages (k : Kernel cfg) : Finset (Fin cfg.numPages) :=
  Finset.univ.filter fun i => (k.pages i).flags = pageFree

@[simp] theorem mem_freePages {i : Fin cfg.numPages} : i ∈ freePages k ↔ (k.pages i).flags = pageFree := by
  simp [freePages]

theorem countFreePages_eq : countFreePages k = (freePages k).card := by
  rw [freePages, Fin.univ_def]
  simp [countFreePages, Finset.card_def, Finset.filter_val, List.countP_eq_length_filter]

theorem freePage_eq_none : freePage k = none ↔ freePages k = ∅ := by
  simp [freePage, Finset.eq_empty_iff_forall_notMem]

theorem freePage_mem {i : Fin cfg.numPages} (h : freePage k = some i) : i ∈ freePages k := by
  simpa using List.find?_some h

/-- The kernel with a page taken. -/
def Kernel.takePage (k : Kernel cfg) (i : Fin cfg.numPages) (pid : ℕ) : Kernel cfg :=
  { k with pages := Function.update k.pages i ⟨pageAllocated, pid⟩ }

theorem freePages_takePage {i : Fin cfg.numPages} {pid : ℕ} :
    freePages (k.takePage i pid) = (freePages k).erase i := by
  ext j
  by_cases hj : j = i
  · subst hj
    simp [Kernel.takePage]
  · simp [Kernel.takePage, hj]

theorem countFreePages_congr (h : k'.pages = k.pages) : countFreePages k' = countFreePages k := by
  rw [countFreePages, countFreePages, h]

theorem countFreePages_takePage {i : Fin cfg.numPages} (pid : ℕ) (hi : freePage k = some i) :
    countFreePages (k.takePage i pid) + 1 = countFreePages k := by
  rw [countFreePages_eq, countFreePages_eq, freePages_takePage, Finset.card_erase_add_one (freePage_mem hi)]

theorem takePage_flags_ne {i : Fin cfg.numPages} {pid : ℕ} :
    ((k.takePage i pid).pages i).flags ≠ pageFree := by
  simp [← mem_freePages, freePages_takePage]

/-- `allocate_page`, with its lock free. -/
theorem allocatePage_apply (hl : k.held .pagedMemory = false) (pid flags : ℕ) :
    allocatePage pid flags k = match freePage k with
      | none => .ok none k
      | some i => .ok (some (cfg.pagePtr i))
          { k with pages := Function.update k.pages i ⟨flags ||| pageAllocated, pid⟩ } := by
  cases h : freePage k with
  | none =>
    refine (withLock_apply (t := k.setHeld .pagedMemory true) hl ?_).trans
      (by rw [Kernel.setHeld_setHeld hl])
    rw [get_bind_apply, show freePage (k.setHeld .pagedMemory true) = none from h]
    rfl
  | some i =>
    refine (withLock_apply (a := some (cfg.pagePtr i)) (t := Kernel.setHeld { k with
      pages := Function.update k.pages i ⟨flags ||| pageAllocated, pid⟩ } .pagedMemory true) hl ?_).trans ?_
    · rw [get_bind_apply, show freePage (k.setHeld .pagedMemory true) = some i from h]
      rfl
    · rw [Kernel.setHeld_setHeld (k := { k with
        pages := Function.update k.pages i ⟨flags ||| pageAllocated, pid⟩ }) hl]

/-- `kalloc`, with its lock free. -/
theorem kalloc_apply (hl : k.held .pagedMemory = false) (pid : ℕ) :
    kalloc pid k = match freePage k with
      | none => .ok none k
      | some i => .ok (some (cfg.pagePtr i)) (k.takePage i pid) :=
  allocatePage_apply hl pid 0

/-! ## Addresses -/

theorem pagePtr_inj {i j : Fin cfg.numPages} (h : cfg.pagePtr i = cfg.pagePtr j) : i = j := by
  have hpos : 0 < cfg.pageSize := by have := cfg.four_le_pageSize; omega
  have h' : (i : ℕ) * cfg.pageSize = j * cfg.pageSize := Nat.add_left_cancel h
  exact Fin.ext (Nat.eq_of_mul_eq_mul_right hpos h')

theorem pageAt_eq_some {ptr : ℕ} {i : Fin cfg.numPages} :
    pageAt cfg ptr = some i ↔ cfg.pagePtr i = ptr := by
  constructor
  · intro h
    simpa using List.find?_some h
  · rintro rfl
    cases h : pageAt cfg (cfg.pagePtr i) with
    | none =>
      have hne : ∀ j, ¬cfg.pagePtr j = cfg.pagePtr i := by simpa [pageAt] using h
      exact absurd rfl (hne i)
    | some j =>
      have hj : cfg.pagePtr j = cfg.pagePtr i := by simpa using List.find?_some h
      rw [pagePtr_inj hj]

/-- Only the page at the address is released. -/
theorem dropPage_of_ne {ptr : ℕ} {pages : Fin cfg.numPages → Page} {j : Fin cfg.numPages}
    (h : cfg.pagePtr j ≠ ptr) : dropPage ptr pages j = pages j := by
  rw [dropPage]
  cases hat : pageAt cfg ptr with
  | none => rfl
  | some i =>
    have hij : j ≠ i := fun hij => h (hij ▸ pageAt_eq_some.1 hat)
    dsimp only
    split
    · rfl
    · exact Function.update_of_ne hij _ _

/-- A page that was released is free. -/
theorem dropPage_flags {ptr : ℕ} {pages : Fin cfg.numPages → Page} {j : Fin cfg.numPages}
    (h : cfg.pagePtr j = ptr) : (dropPage ptr pages j).flags = pageFree := by
  rw [dropPage, pageAt_eq_some.2 h]
  dsimp only
  split
  · assumption
  · simp

end HobbyOs
