import Mathlib.Data.List.Perm.Basic
import Mathlib.Tactic.Ring
import HobbyOs.Boot
import HobbyOs.FileObjects

/-!
# The contract of the page allocator

Any sequence of `allocate_page` and `release_page` calls, with any arguments,
and a ledger of it: the pages that were handed out and not given back since,
with the pids they were handed out for (`PageCalls`).

* The table that `init_paged_memory` builds is `Config.pagePtr`
  (`initPagedMemory_eq`).
* The pages of the ledger are those that are not free in the table
  (`Posted`, an invariant of all sequences); so they are disjoint, and both
  counts of the kernel agree with the ledger.
* `page_contract_iff`: all of this holds for a placement of the heap and of the
  end of the memory if and only if `PAGE_ROUND_UP` does not wrap around at the
  top of the address space. Where it does, the first page is at address 0.
-/

namespace HobbyOs

open Outcome

variable {cfg : Config} {k k' : Kernel cfg} {pid : ℕ}

/-! ## The table -/

/-- What holds of the addresses of a build: they are values of a register,
    `PAGE_SIZE` is a power of two, and the memory ends with a page. -/
structure Placed (cfg : Config) : Prop where
  heapStart_lt : cfg.heapStart < 2 ^ cfg.xlen
  memEnd_lt : cfg.memEnd < 2 ^ cfg.xlen
  pageSize_dvd : cfg.pageSize ∣ 2 ^ cfg.xlen
  dvd_memEnd : cfg.pageSize ∣ cfg.memEnd
  maxPages_pos : 0 < cfg.maxPages

/-- `PAGE_ROUND_UP(&heap_start)` is an address above the heap. -/
def RoundsUp (cfg : Config) : Prop := cfg.pageRoundDown cfg.heapStart + cfg.pageSize < 2 ^ cfg.xlen

theorem pageSize_pos (cfg : Config) : 0 < cfg.pageSize := by
  have := cfg.four_le_pageSize
  omega

theorem dvd_pageRoundDown (cfg : Config) (a : ℕ) : cfg.pageSize ∣ cfg.pageRoundDown a :=
  Nat.dvd_sub_mod a

theorem Placed.dvd_pagesStart (h : Placed cfg) : cfg.pageSize ∣ cfg.pagesStart :=
  (Nat.dvd_mod_iff h.pageSize_dvd).2 (Nat.dvd_add (dvd_pageRoundDown cfg _) (Nat.dvd_refl _))

/-- Between multiples of the page size there is room for a page. -/
theorem add_pageSize_le {a b : ℕ} (ha : cfg.pageSize ∣ a) (hb : cfg.pageSize ∣ b) (h : a < b) :
    a + cfg.pageSize ≤ b := by
  have := Nat.le_of_dvd (Nat.sub_pos_of_lt h) (Nat.dvd_sub hb ha)
  omega

/-- The loop of `init_paged_memory` does not wrap around: it enters pages up to
    the end of the memory, as long as the table has room. -/
theorem pagesFrom_eq (h : Placed cfg) (n : ℕ) {mem : ℕ} (hmem : cfg.pageSize ∣ mem) :
    pagesFrom cfg n mem = (List.range (min n ((cfg.memEnd - mem + cfg.pageSize - 1) / cfg.pageSize))).map
      fun i => mem + i * cfg.pageSize := by
  have hpos := pageSize_pos cfg
  induction n generalizing mem with
  | zero => simp [pagesFrom]
  | succ n ih =>
    rw [pagesFrom]
    split
    · rename_i hlt
      have hle := add_pageSize_le hmem h.dvd_memEnd hlt
      have hcount : (cfg.memEnd - mem + cfg.pageSize - 1) / cfg.pageSize =
          (cfg.memEnd - (mem + cfg.pageSize) + cfg.pageSize - 1) / cfg.pageSize + 1 := by
        rw [← Nat.add_div_right _ hpos]
        congr 1
        omega
      rw [Nat.mod_eq_of_lt (hle.trans_lt h.memEnd_lt), ih (Nat.dvd_add hmem (Nat.dvd_refl _)), hcount,
        Nat.succ_min_succ, List.range_succ_eq_map]
      simp only [List.map_cons, List.map_map, Nat.zero_mul, Nat.add_zero, List.cons.injEq, true_and]
      refine List.map_congr_left fun i _ => ?_
      simp only [Function.comp_apply, Nat.succ_eq_add_one]
      ring
    · have hzero : (cfg.memEnd - mem + cfg.pageSize - 1) / cfg.pageSize = 0 :=
        Nat.div_eq_of_lt (by omega)
      simp [hzero]

/-- The table has the pages that the kernel goes by. -/
theorem initPagedMemory_eq (h : Placed cfg) :
    initPagedMemory cfg = (List.finRange cfg.numPages).map cfg.pagePtr := by
  refine (pagesFrom_eq h _ h.dvd_pagesStart).trans ?_
  rw [← List.map_coe_finRange_eq_range, List.map_map]
  rfl

/-- The pages lie between the heap and the end of the memory. -/
theorem pagePtr_bounds (h : Placed cfg) (hr : RoundsUp cfg) (i : Fin cfg.numPages) :
    cfg.pageSize ∣ cfg.pagePtr i ∧ cfg.heapStart < cfg.pagePtr i ∧
      cfg.pagePtr i + cfg.pageSize ≤ cfg.memEnd := by
  have hpos := pageSize_pos cfg
  have hdvd : cfg.pageSize ∣ cfg.pagePtr i := Nat.dvd_add h.dvd_pagesStart (Nat.dvd_mul_left _ _)
  have hstart : cfg.heapStart < cfg.pagesStart := by
    rw [Config.pagesStart, Config.pageRoundUp, Nat.mod_eq_of_lt hr, Config.pageRoundDown]
    have := Nat.mod_lt cfg.heapStart hpos
    omega
  have hlt : cfg.pagePtr i < cfg.memEnd := by
    have hi : (i : ℕ) < (cfg.memEnd - cfg.pagesStart + cfg.pageSize - 1) / cfg.pageSize :=
      i.2.trans_le (Nat.min_le_right _ _)
    have := (Nat.lt_div_iff_mul_lt hpos).1 hi
    rw [Config.pagePtr]
    omega
  refine ⟨hdvd, ?_, add_pageSize_le hdvd h.dvd_memEnd hlt⟩
  rw [Config.pagePtr]
  omega

/-- Where the rounding wraps around, the heap starts above the end of the
    memory, and the paged memory at address 0. -/
theorem wraps_of_not_roundsUp (h : Placed cfg) (hr : ¬RoundsUp cfg) :
    cfg.memEnd ≤ cfg.heapStart ∧ cfg.pagesStart = 0 := by
  have hdvd : cfg.pageSize ∣ cfg.pageRoundDown cfg.heapStart := dvd_pageRoundDown cfg _
  have hdown : cfg.pageRoundDown cfg.heapStart ≤ cfg.heapStart := Nat.sub_le _ _
  have hle := add_pageSize_le hdvd h.pageSize_dvd (hdown.trans_lt h.heapStart_lt)
  have heq : cfg.pageRoundDown cfg.heapStart + cfg.pageSize = 2 ^ cfg.xlen := by
    unfold RoundsUp at hr
    omega
  refine ⟨?_, by rw [Config.pagesStart, Config.pageRoundUp, heq, Nat.mod_self]⟩
  have := add_pageSize_le h.dvd_memEnd h.pageSize_dvd h.memEnd_lt
  omega

/-- Then the table is not empty, if there is memory. -/
theorem numPages_pos_of_wraps (h : Placed cfg) (hstart : cfg.pagesStart = 0) (hend : cfg.memEnd ≠ 0) :
    0 < cfg.numPages := by
  have hpos := pageSize_pos cfg
  refine lt_min h.maxPages_pos (Nat.div_pos ?_ hpos)
  rw [hstart]
  omega

/-! ## The ledger -/

/-- The kernel right after the loop of `init_paged_memory`. -/
def Kernel.initPages (k : Kernel cfg) : Kernel cfg :=
  { k.setHeld .pagedMemory false with pages := fun _ => ⟨pageFree, noPid⟩ }

/-- The ledger after `allocate_page` has returned `ptr`. -/
def enter (ptr pid : ℕ) (out : List (ℕ × ℕ)) : List (ℕ × ℕ) :=
  if ptr = 0 then out else (ptr, pid) :: out

/-- Some calls of the allocator after `init_paged_memory` have led to `k`, with
    the pages `out` handed out and not given back since. What else the kernel
    does in between leaves the table and its lock alone. -/
inductive PageCalls : Kernel cfg → List (ℕ × ℕ) → Prop
  | init (k : Kernel cfg) : PageCalls k.initPages []
  | allocate {k k' : Kernel cfg} {out : List (ℕ × ℕ)} {pid flags : ℕ} {r : Option ℕ} :
      PageCalls k out →
      allocatePage pid flags k = .ok r k' → PageCalls k' (enter (r.getD 0) pid out)
  | release {k k' : Kernel cfg} {out : List (ℕ × ℕ)} {ptr : ℕ} : PageCalls k out →
      releasePage ptr k = .ok () k' → PageCalls k' (out.filter fun e => e.1 ≠ ptr)
  | other {k k' : Kernel cfg} {out : List (ℕ × ℕ)} : PageCalls k out → k'.pages = k.pages →
      k'.held .pagedMemory = k.held .pagedMemory → PageCalls k' out

/-- The contract, in the state `k` with the pages `out` outstanding. -/
structure Contract (k : Kernel cfg) (out : List (ℕ × ℕ)) : Prop where
  disjoint : out.Pairwise fun e e' => ∀ a, ¬((e.1 ≤ a ∧ a < e.1 + cfg.pageSize) ∧
    (e'.1 ≤ a ∧ a < e'.1 + cfg.pageSize))
  aligned : ∀ e ∈ out, cfg.pageSize ∣ e.1
  inside : ∀ e ∈ out, cfg.heapStart ≤ e.1 ∧ e.1 + cfg.pageSize ≤ cfg.memEnd
  /-- `allocate_page` returns, and returns 0 only if no page is free. -/
  allocates : ∀ pid flags, ∃ r k', allocatePage pid flags k = .ok r k' ∧
    (r.getD 0 = 0 → countFreePages k = 0)
  releases : ∀ ptr, ∃ k', releasePage ptr k = .ok () k'
  free : countFreePages k + out.length = cfg.numPages
  alloced : ∀ pid, countAllocedPages k pid = out.countP fun e => e.2 = pid

/-- The ledger is that of the table. -/
structure Posted (k : Kernel cfg) (out : List (ℕ × ℕ)) : Prop where
  lock : k.held .pagedMemory = false
  nodup : out.Nodup
  mem_iff : ∀ e, e ∈ out ↔ ∃ i, (k.pages i).flags ≠ pageFree ∧ e = (cfg.pagePtr i, (k.pages i).pid)

theorem posted_init (k : Kernel cfg) : Posted k.initPages [] where
  lock := by
    simp only [Kernel.initPages, Kernel.setHeld]
    exact Function.update_self _ _ _
  nodup := .nil
  mem_iff := by simp [Kernel.initPages]

/-- A page that is taken is posted. -/
theorem Posted.take {out : List (ℕ × ℕ)} (h : Posted k out) {i : Fin cfg.numPages}
    (hi : (k.pages i).flags = pageFree) {flags : ℕ} (hflags : flags ≠ pageFree) (pid : ℕ) :
    Posted { k with pages := Function.update k.pages i ⟨flags, pid⟩ } ((cfg.pagePtr i, pid) :: out) where
  lock := h.lock
  nodup := by
    refine List.nodup_cons.2 ⟨fun hmem => ?_, h.nodup⟩
    obtain ⟨j, hj, hij⟩ := (h.mem_iff _).1 hmem
    exact hj (pagePtr_inj (congrArg Prod.fst hij) ▸ hi)
  mem_iff e := by
    rw [List.mem_cons, h.mem_iff]
    constructor
    · rintro (rfl | ⟨j, hj, rfl⟩)
      · exact ⟨i, by simpa using hflags, by simp⟩
      · have hji : j ≠ i := fun hji => hj (hji ▸ hi)
        exact ⟨j, by simpa [hji] using hj, by simp [hji]⟩
    · rintro ⟨j, hj, rfl⟩
      by_cases hji : j = i
      · subst hji
        exact .inl (by simp)
      · exact .inr ⟨j, by simpa [hji] using hj, by simp [hji]⟩

/-- A page that is released, at its address or at one that is no page's, is off
    the ledger. -/
theorem Posted.drop {out : List (ℕ × ℕ)} (h : Posted k out) (ptr : ℕ) :
    Posted { k with pages := dropPage ptr k.pages } (out.filter fun e => e.1 ≠ ptr) where
  lock := h.lock
  nodup := h.nodup.filter _
  mem_iff e := by
    simp only [List.mem_filter, h.mem_iff, decide_eq_true_eq]
    constructor
    · rintro ⟨⟨j, hj, rfl⟩, hne⟩
      exact ⟨j, by rwa [dropPage_of_ne hne], by rw [dropPage_of_ne hne]⟩
    · rintro ⟨j, hj, rfl⟩
      -- After the release, no page at `ptr` is in use; the others are as before.
      have hne : cfg.pagePtr j ≠ ptr := fun hptr => hj (dropPage_flags hptr)
      rw [dropPage_of_ne hne] at hj ⊢
      exact ⟨⟨j, hj, rfl⟩, hne⟩

/-- Every sequence of calls keeps the ledger that of the table, where no page is
    at address 0. -/
theorem PageCalls.posted {out : List (ℕ × ℕ)} (hptr : ∀ i, cfg.pagePtr i ≠ 0) (h : PageCalls k out) :
    Posted k out := by
  induction h with
  | init k => exact posted_init k
  | @allocate k k' out pid flags r _ hret ih =>
    rw [allocatePage_apply ih.lock] at hret
    cases hfree : freePage k with
    | none =>
      rw [hfree] at hret
      cases hret
      exact ih
    | some i =>
      rw [hfree] at hret
      cases hret
      have hflags : flags ||| pageAllocated ≠ pageFree := by
        intro hzero
        exact absurd (Nat.or_eq_zero_iff.1 hzero).2 (by decide)
      rw [Option.getD_some, enter, if_neg (hptr i)]
      exact ih.take (mem_freePages.1 (freePage_mem hfree)) hflags pid
  | @release k k' out ptr _ hret ih =>
    rw [releasePage_apply ih.lock] at hret
    cases hret
    exact ih.drop ptr
  | other _ hpages hheld ih =>
    exact ⟨hheld.trans ih.lock, ih.nodup, by simpa only [hpages] using ih.mem_iff⟩

/-- The ledger lists the pages in use, in some order. -/
theorem Posted.perm {out : List (ℕ × ℕ)} (h : Posted k out) :
    out.Perm (((List.finRange cfg.numPages).filter fun i => (k.pages i).flags ≠ pageFree).map
      fun i => (cfg.pagePtr i, (k.pages i).pid)) := by
  refine (List.perm_ext_iff_of_nodup h.nodup ?_).2 fun e => ?_
  · refine ((List.nodup_finRange _).filter _).map_on fun i _ j _ hij => ?_
    exact pagePtr_inj (congrArg Prod.fst hij)
  · rw [h.mem_iff]
    simp only [List.mem_map, List.mem_filter, List.mem_finRange, true_and, decide_eq_true_eq]
    exact exists_congr fun i => and_congr_right fun _ => eq_comm

/-- Pages at different places do not overlap. -/
theorem pagePtr_disjoint {i j : Fin cfg.numPages} (hij : i ≠ j) (a : ℕ) :
    ¬((cfg.pagePtr i ≤ a ∧ a < cfg.pagePtr i + cfg.pageSize) ∧
      (cfg.pagePtr j ≤ a ∧ a < cfg.pagePtr j + cfg.pageSize)) := by
  rintro ⟨⟨hi, hi'⟩, hj, hj'⟩
  simp only [Config.pagePtr] at hi hi' hj hj'
  rcases Nat.lt_or_gt_of_ne (fun h => hij (Fin.ext h)) with hlt | hlt
  · have := Nat.mul_le_mul_right cfg.pageSize (Nat.succ_le_of_lt hlt)
    rw [Nat.succ_mul] at this
    omega
  · have := Nat.mul_le_mul_right cfg.pageSize (Nat.succ_le_of_lt hlt)
    rw [Nat.succ_mul] at this
    omega

/-- The contract holds of a ledger that is that of the table. -/
theorem Posted.contract {out : List (ℕ × ℕ)} (h : Posted k out) (hptr : ∀ i, cfg.pagePtr i ≠ 0)
    (hbounds : ∀ i, cfg.pageSize ∣ cfg.pagePtr i ∧ cfg.heapStart < cfg.pagePtr i ∧
      cfg.pagePtr i + cfg.pageSize ≤ cfg.memEnd) : Contract k out where
  disjoint := by
    refine h.nodup.pairwise_of_forall_ne fun e he e' he' hne => ?_
    obtain ⟨i, -, rfl⟩ := (h.mem_iff e).1 he
    obtain ⟨j, -, rfl⟩ := (h.mem_iff e').1 he'
    exact pagePtr_disjoint fun hij => hne (hij ▸ rfl)
  aligned e he := by
    obtain ⟨i, -, rfl⟩ := (h.mem_iff e).1 he
    exact (hbounds i).1
  inside e he := by
    obtain ⟨i, -, rfl⟩ := (h.mem_iff e).1 he
    exact ⟨(hbounds i).2.1.le, (hbounds i).2.2⟩
  allocates pid flags := by
    rw [allocatePage_apply h.lock]
    cases hfree : freePage k with
    | none =>
      refine ⟨none, k, rfl, fun _ => ?_⟩
      rw [countFreePages_eq, freePage_eq_none.1 hfree, Finset.card_empty]
    | some i => exact ⟨some (cfg.pagePtr i), _, rfl, fun hzero => absurd hzero (hptr i)⟩
  releases ptr := ⟨_, releasePage_apply h.lock ptr⟩
  free := by
    -- The pages that are out are those not free, so the free ones are the rest.
    rw [h.perm.length_eq, List.length_map, countFreePages, ← List.countP_eq_length_filter]
    have hlen := List.length_eq_countP_add_countP
      (fun i => decide ((k.pages i).flags = pageFree)) (l := List.finRange cfg.numPages)
    rw [List.length_finRange] at hlen
    simpa using hlen.symm
  alloced pid := by
    rw [h.perm.countP_eq, List.countP_map, List.countP_filter]
    simp [countAllocedPages, and_comm]

/-- The contract of the page allocator holds for all sequences of calls if and
    only if `PAGE_ROUND_UP(&heap_start)` does not wrap around, or there is no
    memory at all. -/
theorem page_contract_iff (h : Placed cfg) :
    initPagedMemory cfg = (List.finRange cfg.numPages).map cfg.pagePtr ∧
      ((∀ (k : Kernel cfg) (out : List (ℕ × ℕ)), PageCalls k out → Contract k out) ↔
        RoundsUp cfg ∨ cfg.memEnd = 0) := by
  refine ⟨initPagedMemory_eq h, fun hall => ?_, ?_⟩
  · by_contra hnot
    obtain ⟨hr, hend⟩ := not_or.1 hnot
    obtain ⟨hheap, hstart⟩ := wraps_of_not_roundsUp h hr
    have hpos := numPages_pos_of_wraps h hstart hend
    -- The first call of `allocate_page`.
    have hinit : PageCalls (boot cfg fun _ => 0).k.initPages [] := .init _
    have hfree := (hall _ _ hinit).free
    obtain ⟨r, k', hret, hzero⟩ := (hall _ _ hinit).allocates 0 0
    have hr : r.getD 0 ≠ 0 := by
      intro hr
      have := hzero hr
      rw [List.length_nil] at hfree
      omega
    have hinside := (hall _ _ (hinit.allocate hret)).inside (r.getD 0, 0)
    rw [enter, if_neg hr] at hinside
    have := hinside List.mem_cons_self
    have := pageSize_pos cfg
    omega
  · rintro (hr | hend) k out hcalls
    · have hptr : ∀ i, cfg.pagePtr i ≠ 0 := fun i => by
        have := (pagePtr_bounds h hr i).2.1
        omega
      exact (hcalls.posted hptr).contract hptr (pagePtr_bounds h hr)
    · -- The table is empty.
      have hnone : cfg.numPages = 0 := by
        have := pageSize_pos cfg
        have hzero : (cfg.memEnd - cfg.pagesStart + cfg.pageSize - 1) / cfg.pageSize = 0 :=
          Nat.div_eq_of_lt (by omega)
        rw [Config.numPages, hzero, Nat.min_zero]
      have hptr : ∀ i, cfg.pagePtr i ≠ 0 := fun i => absurd i.2 (by omega)
      exact (hcalls.posted hptr).contract hptr fun i => absurd i.2 (by omega)

/-- The build for `sifive_e`, with the heap in the last page of the addresses. -/
def Config.highHeap : Config := { Config.qemuE with heapStart := 0xffffff00 }

/-- There the first page handed out is the one at address 0. -/
theorem highHeap_breaks_contract :
    ¬∀ cfg : Config, Placed cfg → ∀ (k : Kernel cfg) (out : List (ℕ × ℕ)), PageCalls k out →
    Contract k out := by
  intro hall
  have hplaced : Placed .highHeap := ⟨by decide, by decide, by decide, by decide, by decide⟩
  have hinit : PageCalls (boot .highHeap fun _ => 0).k.initPages [] := .init _
  obtain ⟨r, k', hret, hzero⟩ := (hall _ hplaced _ _ hinit).allocates 0 0
  have hval : value (allocatePage 0 0 (boot .highHeap fun _ => 0).k.initPages) = some (some 0) ∧
      countFreePages (boot .highHeap fun _ => 0).k.initPages = 32 := by
    decide +kernel
  rw [hret] at hval
  obtain rfl := Option.some.inj hval.1
  rw [hzero rfl] at hval
  exact absurd hval.2 (by decide)

/-- With the heap where a linker puts it, the contract holds. -/
theorem lowHeap_contract :
    Placed .qemuE ∧ ∀ (k : Kernel .qemuE) (out : List (ℕ × ℕ)), PageCalls k out →
    Contract k out := by
  have hplaced : Placed .qemuE := ⟨by decide, by decide, by decide, by decide, by decide⟩
  exact ⟨hplaced, (page_contract_iff hplaced).2.2 (.inl (by unfold RoundsUp; decide))⟩

end HobbyOs
