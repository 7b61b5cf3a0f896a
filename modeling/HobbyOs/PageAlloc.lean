import HobbyOs.State

/-!
# Pages

`pagealloc.c`: the table of pages, first-fit allocation, and release by
address. A page that is allocated keeps the pid it was allocated for.
-/

namespace HobbyOs

variable {cfg : Config}

/-- The loop of `init_paged_memory` from the address `mem` on, with `n` entries
    of the table left: the addresses of the pages it enters. -/
def pagesFrom (cfg : Config) : ℕ → ℕ → List ℕ
  | 0, _ => []
  | n + 1, mem =>
    if mem < cfg.memEnd then mem :: pagesFrom cfg n ((mem + cfg.pageSize) % 2 ^ cfg.xlen) else []

/-- `init_paged_memory`: the `ptr` of all pages. Without wrapping around, these
    are the `Config.pagePtr`, which the rest of the kernel goes by. -/
def initPagedMemory (cfg : Config) : List ℕ :=
  pagesFrom cfg cfg.maxPages (cfg.pageRoundUp cfg.heapStart)

/-- The first page that is free. -/
def freePage (k : Kernel cfg) : Option (Fin cfg.numPages) :=
  (List.finRange cfg.numPages).find? fun i => (k.pages i).flags = pageFree

/-- The page at an address. -/
def pageAt (cfg : Config) (ptr : ℕ) : Option (Fin cfg.numPages) :=
  (List.finRange cfg.numPages).find? fun i => cfg.pagePtr i = ptr

/-- The page that was found free, if any, is taken. -/
def takePage (pid flags : ℕ) : Option (Fin cfg.numPages) → KM cfg (Option ℕ)
  | none => return none
  | some i => do
    modify fun k => { k with pages := Function.update k.pages i ⟨flags ||| pageAllocated, pid⟩ }
    return some (cfg.pagePtr i)

/-- `allocate_page`: a page, or a null pointer. -/
def allocatePage (pid flags : ℕ) : KM cfg (Option ℕ) :=
  withLock .pagedMemory do takePage pid flags (freePage (← get))

/-- `kalloc`. -/
def kalloc (pid : ℕ) : KM cfg (Option ℕ) := allocatePage pid 0

/-- The pages with the one at `ptr` made free; one that is free stays as it is. -/
def dropPage (ptr : ℕ) (pages : Fin cfg.numPages → Page) : Fin cfg.numPages → Page :=
  match pageAt cfg ptr with
  | none => pages
  | some i =>
    if (pages i).flags = pageFree then pages else Function.update pages i ⟨pageFree, noPid⟩

/-- `release_page`. -/
def releasePage (ptr : ℕ) : KM cfg Unit :=
  withLock .pagedMemory do modify fun k => { k with pages := dropPage ptr k.pages }

/-- `count_free_pages`. -/
def countFreePages (k : Kernel cfg) : ℕ :=
  (List.finRange cfg.numPages).countP fun i => (k.pages i).flags = pageFree

/-- `count_alloced_pages`. -/
def countAllocedPages (k : Kernel cfg) (pid : ℕ) : ℕ :=
  (List.finRange cfg.numPages).countP fun i => (k.pages i).flags ≠ pageFree ∧ (k.pages i).pid = pid

/-- `copy_page`. -/
def copyPage (dst src : ℕ) : KM cfg Unit :=
  modify fun k => { k with
    mem := fun x => if dst ≤ x ∧ x < dst + cfg.pageSize then k.mem (src + (x - dst)) else k.mem x }

end HobbyOs
