import HobbyOs.Base
import HobbyOs.Pages

/-!
# Pages of user memory

`proc_pgfree` releases the page that the address it is given translates to, and
asks neither whose page it is nor what it is for (`pgfree_own_iff`): without an
MMU that is any page, and with one any page that the page table maps.
-/

namespace HobbyOs

open Outcome Transition

variable {cfg : Config} {p : Slot cfg} {k : Kernel cfg} {m : Machine cfg}

/-- The page is one of user memory, allocated for the process. -/
structure OwnUserPage (p : Slot cfg) (k : Kernel cfg) (i : Fin cfg.numPages) : Prop where
  usermem : (k.pages i).flags &&& pageUsermem ≠ 0
  pid : (k.pages i).pid = (k.procs p).pid

instance (p : Slot cfg) (k : Kernel cfg) (i : Fin cfg.numPages) : Decidable (OwnUserPage p k i) :=
  decidable_of_iff ((k.pages i).flags &&& pageUsermem ≠ 0 ∧ (k.pages i).pid = (k.procs p).pid)
    ⟨fun h => ⟨h.1, h.2⟩, fun h => ⟨h.usermem, h.pid⟩⟩

/-- At most one page changes its status, and it is user memory of the process. -/
structure FreesOwn (p : Slot cfg) (k k' : Kernel cfg) : Prop where
  one : ∀ i j, k'.pages i ≠ k.pages i → k'.pages j ≠ k.pages j → i = j
  own : ∀ i, k'.pages i ≠ k.pages i → OwnUserPage p k i

/-- `proc_pgfree`, with the lock of the allocator free. -/
theorem procPgfree_apply (hl : k.held .pagedMemory = false) (page : ℕ) :
    procPgfree p page k =
      .ok 0 { k with pages := dropPage (va2pa k (k.procs p).upagetable page) k.pages } := by
  rw [procPgfree, get_bind_apply]
  exact bind_ok (releasePage_apply hl _)

/-- Releasing a page of another kind changes the status of that page. -/
theorem freesOwn_dropPage_iff {ptr : ℕ} :
    FreesOwn p k { k with pages := dropPage ptr k.pages } ↔
      ∀ i, cfg.pagePtr i = ptr → (k.pages i).flags = pageFree ∨ OwnUserPage p k i := by
  have hat : ∀ {i}, dropPage ptr k.pages i ≠ k.pages i → cfg.pagePtr i = ptr := by
    intro i hi
    by_contra hne
    exact hi (dropPage_of_ne hne)
  constructor
  · intro h i hi
    by_cases hfree : (k.pages i).flags = pageFree
    · exact .inl hfree
    · refine .inr (h.own i fun heq => hfree ?_)
      have hdrop : dropPage ptr k.pages i = k.pages i := heq
      rw [← hdrop]
      exact dropPage_flags hi
  · intro h
    refine ⟨fun i j hi hj => pagePtr_inj ((hat hi).trans (hat hj).symm), fun i hi => ?_⟩
    refine (h i (hat hi)).resolve_left fun hfree => hi ?_
    -- A page that is free stays as it is.
    have hfound : pageAt cfg ptr = some i := pageAt_eq_some.2 (hat hi)
    simp [dropPage, hfound, hfree]

/-- `proc_pgfree` only frees user memory of its caller, if and only if the page
    at the physical address, if there is one, is free or user memory of the caller. -/
theorem pgfree_own_iff {C : Machine cfg → Event cfg → Prop} (h : Reach (machine cfg) C m)
    (hmode : m.mode = .user) (hcpu : m.k.cpuProc = some p) (page : ℕ) :
    ∃ k', procPgfree p page ((trap m).entry p) = .ok 0 k' ∧
      (FreesOwn p ((trap m).entry p) k' ↔
        ∀ i, cfg.pagePtr i = va2pa m.k (m.k.procs p).upagetable page →
          (m.k.pages i).flags = pageFree ∨ OwnUserPage p ((trap m).entry p) i) := by
  have hfree : ((trap m).entry p).held .pagedMemory = false :=
    (calm_of_reach h hmode hcpu).1.free _ (by simp [others])
  exact ⟨_, procPgfree_apply hfree page, freesOwn_dropPage_iff⟩

/-- The first process gets a page of user memory. -/
def pgallocEvents : List (Event .qemuE) := [Event.kernel, .kernel] ++ calls 34 0 0 0 []

/-- It may free that page, at 0x80002000. -/
theorem pgalloc_pgfree : ∃ m : Machine .qemuE, Reach (machine .qemuE) free m ∧
    ∃ k', procPgfree ⟨0, by decide⟩ 0x80002000 ((trap m).entry ⟨0, by decide⟩) = .ok 0 k' ∧
      FreesOwn ⟨0, by decide⟩ ((trap m).entry ⟨0, by decide⟩) k' := by
  have h : ∃ m ∈ runFrom .qemuE pgallocEvents, m.mode = .user ∧ m.k.cpuProc = some ⟨0, by decide⟩ ∧
      ∀ i, Config.qemuE.pagePtr i = va2pa m.k (m.k.procs ⟨0, by decide⟩).upagetable 0x80002000 →
        (m.k.pages i).flags = pageFree ∨
        OwnUserPage ⟨0, by decide⟩ ((trap m).entry ⟨0, by decide⟩) i := by
    decide +kernel
  obtain ⟨m, hm, hmode, hcpu, howns⟩ := h
  have hr := reach_of_runFrom hm
  obtain ⟨k', hok, hiff⟩ := pgfree_own_iff hr hmode hcpu 0x80002000
  exact ⟨m, hr, k', hok, hiff.2 howns⟩

/-- The first process frees its own stack page. -/
theorem stack_page_freed :
    ¬∀ (m : Machine .qemuE) (p : Slot .qemuE) (page : ℕ) (k' : Kernel .qemuE),
      Reach (machine .qemuE) free m → m.mode = .user → m.k.cpuProc = some p →
      procPgfree p page ((trap m).entry p) = .ok 0 k' → FreesOwn p ((trap m).entry p) k' := by
  have h : ∃ m ∈ runFrom .qemuE [.kernel, .kernel], m.mode = .user ∧
      m.k.cpuProc = some ⟨0, by decide⟩ ∧ m.k.held .pagedMemory = false ∧
      Config.qemuE.pagePtr ⟨0, by decide⟩ = (m.k.procs ⟨0, by decide⟩).stackPage ∧
      (m.k.pages ⟨0, by decide⟩).flags ≠ pageFree ∧
      ¬OwnUserPage ⟨0, by decide⟩ ((trap m).entry ⟨0, by decide⟩) ⟨0, by decide⟩ := by
    decide +kernel
  obtain ⟨m, hm, hmode, hcpu, hheld, hptr, htaken, hother⟩ := h
  intro hclaim
  have hfrees := hclaim m _ (m.k.procs ⟨0, by decide⟩).stackPage _ (reach_of_runFrom hm) hmode hcpu
    (procPgfree_apply (k := (trap m).entry ⟨0, by decide⟩) hheld _)
  exact (freesOwn_dropPage_iff.1 hfrees ⟨0, by decide⟩ hptr).elim htaken hother

end HobbyOs
