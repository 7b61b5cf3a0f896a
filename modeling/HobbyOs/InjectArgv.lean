import HobbyOs.Argv
import HobbyOs.Entries
import HobbyOs.Machine
import HobbyOs.OwnedTables

/-!
# The arguments of the first process

With a test script, `inject_argv` puts the arguments of the first process at the end
of its stack page. Below the word for `errno` are a null, the array of pointers, and
the strings, the first one highest, each with its zero; the stack goes on below them.

* `Injected`: what the loop has stored after some of the strings;
* `FreshStack`: the stack page of a process from `init_proc`, at its place in the page
  table;
* `injectArgv_receives`: the process finds any arguments that fit into the page.
-/

namespace HobbyOs

open Outcome Radix

variable {cfg : Config} {p : Slot cfg} {k k' : Kernel cfg} {mem : ℕ → UInt8} {args ss : List (List UInt8)}
  {arr i : ℕ}

/-! ## The loop -/

/-- The bytes of the first `i` strings, with their zeros. -/
def spanned (args : List (List UInt8)) (i : ℕ) : ℕ := sumTo (fun s => s.length + 1) args i

/-- Where the string `i` goes, below the array at `arr`. -/
def strBelow (arr : ℕ) (args : List (List UInt8)) (i : ℕ) : ℕ := arr - spanned args (i + 1)

/-- All strings together. -/
abbrev spannedAll (args : List (List UInt8)) : ℕ := spanned args args.length

theorem spanned_succ (h : i < args.length) : spanned args (i + 1) = spanned args i + (args[i].length + 1) :=
  sumTo_succ h

theorem spanned_mono (args : List (List UInt8)) : Monotone (spanned args) := sumTo_mono _ args

theorem spanned_le_all (h : i ≤ args.length) : spanned args i ≤ spannedAll args := spanned_mono args h

/-- A string ends where the one before it starts. -/
theorem strBelow_add (h : i < args.length) (hroom : spannedAll args ≤ arr) :
    strBelow arr args i + (args[i].length + 1) = arr - spanned args i := by
  have hle : spanned args (i + 1) ≤ spannedAll args := spanned_le_all h
  rw [spanned_succ h] at hle
  rw [strBelow, spanned_succ h]
  omega

/-- The strings are below the array, each below those before it. -/
theorem strBelow_lt (hroom : spannedAll args ≤ arr) {j : ℕ} (hj : j < args.length) (hij : i < j) :
    strBelow arr args j + (args[j].length + 1) ≤ strBelow arr args i := by
  rw [strBelow_add hj hroom, strBelow]
  have := spanned_mono args (Nat.succ_le_of_lt hij)
  rw [Nat.succ_eq_add_one] at this
  omega

/-- The first `i` strings are in place, with pointers to them in the array at `arr`. -/
structure Injected (cfg : Config) (mem : ℕ → UInt8) (arr : ℕ) (args : List (List UInt8)) (i : ℕ) :
    Prop where
  string : ∀ j (h : j < args.length), j < i → Stored mem (strBelow arr args j) (args[j] ++ [0])
  pointer : ∀ j < i,
    Stored mem (arr + cfg.regSz * j) (bytesOfWord (cfg.usrStkVirt (strBelow arr args j)) cfg.regSz)

theorem injected_zero (cfg : Config) (mem : ℕ → UInt8) (arr : ℕ) (args : List (List UInt8)) :
    Injected cfg mem arr args 0 :=
  ⟨fun _ _ h => absurd h (Nat.not_lt_zero _), fun _ h => absurd h (Nat.not_lt_zero _)⟩

namespace Injected

/-- The next string and its pointer are stored. -/
theorem step (h : Injected cfg mem arr args i) (hi : i < args.length) (hroom : spannedAll args ≤ arr) :
    Injected cfg (storeBytes (storeBytes mem (strBelow arr args i) (args[i] ++ [0])) (arr + cfg.regSz * i)
      (bytesOfWord (cfg.usrStkVirt (strBelow arr args i)) cfg.regSz)) arr args (i + 1) := by
  have hlen : ∀ t : List UInt8, (t ++ [0]).length = t.length + 1 := fun t => by simp
  have hend := strBelow_add hi hroom
  constructor
  · intro j hj hji
    have hbelow := strBelow_add hj hroom
    refine Stored.store ?_ (.inl (by rw [hlen]; omega))
    rcases Nat.lt_succ_iff_lt_or_eq.1 hji with hlt | rfl
    · refine (h.string j hj hlt).store (.inr ?_)
      rw [hlen]
      exact strBelow_lt hroom hi hlt
    · exact stored_storeBytes _ _ _
  · intro j hji
    rcases Nat.lt_succ_iff_lt_or_eq.1 hji with hlt | rfl
    · refine ((h.pointer j hlt).store (.inr (by rw [hlen]; omega))).store (.inl ?_)
      rw [length_bytesOfWord]
      exact word_add_le hlt
    · exact stored_storeBytes _ _ _

/-- Behind the array, something is stored. -/
theorem store (h : Injected cfg mem arr args args.length) (hroom : spannedAll args ≤ arr) (bs : List UInt8) :
    Injected cfg (storeBytes mem (arr + cfg.regSz * args.length) bs) arr args args.length := by
  refine ⟨fun j hj hlt => (h.string j hj hlt).store (.inl ?_), fun j hlt =>
    (h.pointer j hlt).store (.inl ?_)⟩
  · have := strBelow_add hj hroom
    rw [List.length_append, List.length_singleton]
    omega
  · rw [length_bytesOfWord]
    exact word_add_le hlt

end Injected

/-- The loop of `inject_argv`, from the string `i` on: it stores the others, their
    pointers, and the null. -/
theorem injectLoop_ok (hroom : spannedAll args ≤ arr) (hss : args.drop i = ss) (hi : i ≤ args.length)
    (h : Injected cfg k.mem arr args i) :
    ∃ mem', injectLoop ss (arr - spanned args i) (arr + cfg.regSz * i) k =
        .ok (arr - spannedAll args) { k with mem := mem' } ∧
      Injected cfg mem' arr args args.length ∧
        Stored mem' (arr + cfg.regSz * args.length) (bytesOfWord 0 cfg.regSz) := by
  induction ss generalizing i k with
  | nil =>
    obtain rfl : i = args.length := le_antisymm hi (List.drop_eq_nil_iff.1 hss)
    exact ⟨_, rfl, h.store hroom _, stored_storeBytes _ _ _⟩
  | cons s ss ih =>
    have hlt : i < args.length := by
      by_contra hge
      rw [List.drop_of_length_le (not_lt.1 hge)] at hss
      cases hss
    rw [List.drop_eq_getElem_cons hlt, List.cons.injEq] at hss
    obtain ⟨rfl, rfl⟩ := hss
    -- `strncpy` is given room for the whole string.
    have hcopy : strncpy args[i] (args[i].length + 1) = args[i] ++ [0] := by
      rw [strncpy, Nat.add_sub_cancel, List.take_length]
    have hdst : arr - spanned args i - (args[i].length + 1) = strBelow arr args i := by
      rw [strBelow, spanned_succ hlt, Nat.sub_sub]
    have hnext : arr + cfg.regSz * i + cfg.regSz = arr + cfg.regSz * (i + 1) := by
      rw [Nat.mul_succ, Nat.add_assoc]
    rw [injectLoop, hdst, hcopy, hnext, HobbyOs.store, modify_bind_apply, HobbyOs.store, modify_bind_apply]
    exact ih (k := { k with mem := _ }) rfl hlt (h.step hlt hroom)

/-! ## The stack of a fresh process -/

theorem built_mapPageSv39 {pt pa va perm pid : ℕ} (hperm : Grants perm) :
    Triple (Built pt) (mapPageSv39 pt pa va perm pid : KM cfg Unit) (fun _ => Built pt) fun _ _ => True := by
  intro k hk
  cases hr : mapPageSv39 pt pa va perm pid k with
  | ok _ k' => exact hk.map hperm hr
  | error _ _ => exact trivial

theorem built_mapRange {pt pa va perm pid n : ℕ} (hperm : Grants perm) :
    Triple (Built pt) (mapRange pt pa va perm pid n : KM cfg Unit) (fun _ => Built pt) fun _ _ => True :=
  Triple.forM (I := fun _ => Built pt) (fun _ _ => built_mapPageSv39 hperm) _

/-- `init_user_page_table` builds a page table, in any page that is allocated. -/
theorem built_initUserPageTable {pid : ℕ} (hmmu : cfg.mmu = true) (j : Fin cfg.numPages) :
    Triple (fun k : Kernel cfg => (k.pages j).flags ≠ pageFree) (initUserPageTable (cfg.pagePtr j) pid)
      (fun _ => Built (cfg.pagePtr j)) fun _ _ => True := by
  have hzero : Triple (fun k : Kernel cfg => (k.pages j).flags ≠ pageFree) (clearTable (cfg.pagePtr j))
      (fun _ => Built (cfg.pagePtr j)) fun _ _ => True := by
    refine Triple.modify fun k hk => .zeroed rfl hk fun n hn => if_pos ?_
    have := cfg.pageSize_of_mmu hmmu
    omega
  have hmap : ∀ {pa va perm : ℕ}, Grants perm → Triple (Built (cfg.pagePtr j))
      (mapPageSv39 (cfg.pagePtr j) pa va perm pid : KM cfg Unit) (fun _ => Built (cfg.pagePtr j)) fun _ _ =>
        True :=
    built_mapPageSv39
  have hkdata : Grants permKdata := ⟨by decide, by decide⟩
  rw [initUserPageTable, if_pos hmmu]
  refine hzero.bind fun _ => (hmap hkdata).bind fun _ => (hmap ⟨by decide, by decide⟩).bind fun _ => ?_
  refine (hmap hkdata).bind fun _ => (hmap hkdata).bind fun _ => ?_
  exact (built_mapRange ⟨by decide, by decide⟩).bind fun _ => built_mapRange ⟨by decide, by decide⟩

section

variable (hplaced : Placed cfg) (hmmu : cfg.mmu = true) {t : TablePage}
include hplaced hmmu

/-- The stack page becomes the topmost one, and the guard page below it is another
    one. -/
theorem mapStack_entry {base pid : ℕ} (hown : Owned k (single t)) (h : mapStack t base pid k = .ok () k') :
    Owned k' (single t) ∧ sv39.entry k'.pte (single t) () (vpns topmostVirtPage 3) =
      leafPte base permUdata := by
  obtain ⟨_, k₁, hstack, hguard⟩ := bind_eq_ok.1 h
  obtain ⟨⟨_, -, hsets⟩, hown₁⟩ :=
    hown.map hplaced hmmu (r := ()) rfl ⟨by decide, by decide⟩ hstack
  obtain ⟨⟨_, hgrows, hsets'⟩, hown'⟩ :=
    hown₁.map hplaced hmmu (r := ()) rfl ⟨by decide, by decide⟩ hguard
  refine ⟨hown', ?_⟩
  have hne : ¬(() = () ∧ vpns topmostVirtPage 3 = vpns (guardPage cfg) 3) := by
    rw [vpns_eq_iff, guardPage, cfg.pageSize_of_mmu hmmu]
    decide
  rw [hsets'.entry (length_vpns _ 3) hne, hgrows.entry (length_vpns _ 3), hsets.entry_self]

/-- The addresses of the stack translate to its page. -/
theorem va2pa_mapStack {j : Fin cfg.numPages} {pid x : ℕ} (hown : Owned k (single t))
    (h : mapStack t (cfg.pagePtr j) pid k = .ok () k') (hx : cfg.pagePtr j ≤ x)
    (hlt : x < cfg.pagePtr j + 4096) :
    va2pa k' t (cfg.usrStkVirt x) = x := by
  obtain ⟨hown', hentry⟩ := mapStack_entry hplaced hmmu hown h
  obtain ⟨hdvd, hpage⟩ := pagePtr_page hplaced hmmu j
  obtain ⟨q, hq⟩ := id hdvd
  rw [usrStkVirt_of_mmu hmmu]
  have hoffs : x % 4096 = x - cfg.pagePtr j := by omega
  have hsame : vpns (topmostVirtPage + x % 4096) 3 = vpns topmostVirtPage 3 := by
    rw [vpns_eq_iff]
    intro level hlevel
    have hoff : x % 4096 < 4096 := Nat.mod_lt _ (by decide)
    match level, hlevel with
    | 0, _ | 1, _ | 2, _ =>
      simp only [vpn, topmostVirtPage]
      omega
  rw [va2pa_of_entry (r := ()) hmmu hown'.tables rfl hpage hdvd ⟨by decide, by decide⟩
    (hsame ▸ hentry), pageOffs,
    cfg.pageSize_of_mmu hmmu, topmostVirtPage]
  omega

end

/-- The stack page of `p` is one of the allocator's, with the word for `errno` at its
    end, and the addresses of the stack translate to it. -/
structure FreshStack (p : Slot cfg) (k : Kernel cfg) : Prop where
  page : ∃ j, (k.procs p).stackPage = cfg.pagePtr j
  perrno : (k.procs p).perrno = setPerrno cfg (k.procs p).stackPage
  maps : ∀ x, (k.procs p).stackPage ≤ x → x < (k.procs p).stackPage + cfg.userStackSize →
    va2pa k (k.procs p).upagetable (cfg.usrStkVirt x) = x

/-- The pages that `init_proc` takes: the page table maps the stack. -/
theorem initProcPages_maps (hplaced : Placed cfg) (hsizes : StackSizes cfg) {sp ksp : ℕ}
    (h : initProcPages p k = .ok (some (sp, ksp)) k') :
    (∃ j, sp = cfg.pagePtr j) ∧ ∀ x, sp ≤ x → x < sp + cfg.userStackSize →
      va2pa k' (k'.procs p).upagetable (cfg.usrStkVirt x) = x := by
  cases initProcPages_ok h with
  | noMmu hmmu _ _ =>
    refine ⟨⟨_, rfl⟩, fun x _ _ => ?_⟩
    rw [va2pa, if_neg (by simp [hmmu]), usrStkVirt_of_noMmu hmmu]
  | @mmu i _ l k₁ _ hmmu _ _ _ htable hstack =>
    -- The page table is built in the page that was taken for it.
    have hbuilt : Built (cfg.pagePtr l) k₁ :=
      (built_initUserPageTable hmmu l).of_ok
        (by simp [Kernel.takeTable, Kernel.takePage, Kernel.setProc]) htable
    obtain ⟨hdvd, hown⟩ := hbuilt.owned hplaced hmmu
    have hpt : (k'.procs p).upagetable = cfg.pagePtr l := by
      have hkept : (k'.procs p).upagetable = (k₁.procs p).upagetable :=
        (Frame.same (x := .stackPages) (frame_mapStack (by simp) (by simp)) hstack p).2.2
      refine hkept.trans
        (((Frame.same (x := .stackPages) (frame_initUserPageTable (by simp) (by simp)) htable p).2.2).trans ?_)
      simp [Kernel.takeTable, Kernel.setProc]
    have hsize : cfg.userStackSize ≤ 4096 := by
      have := cfg.pageSize_of_mmu hmmu
      rcases hsizes.userStackSize with h | h <;> omega
    refine ⟨⟨i, rfl⟩, fun x hx hlt => ?_⟩
    rw [hpt]
    exact va2pa_mapStack (t := ⟨cfg.pagePtr l, hdvd⟩) hplaced hmmu hown hstack hx (by omega)

/-- What the addresses of the stack of `p` depend on. -/
def stackView (p : Slot cfg) (k : Kernel cfg) : ℕ × ℕ × ℕ × (ℕ → ℕ) :=
  ((k.procs p).stackPage, (k.procs p).perrno, (k.procs p).upagetable, k.pte)

theorem initProcfsFiles_stackView {name : Option (List UInt8)} (h : initProcfsFiles p name k = .ok 0 k') :
    stackView p k' = stackView p k := by
  rw [initProcfsFiles, get_bind_apply] at h
  cases htext : itoa maxFilenameLen (k.procs p).pid with
  | none =>
    rw [htext] at h
    cases h
  | some text =>
    rw [htext] at h
    simp only [modifyProc, modify_bind_apply] at h
    obtain ⟨o, k₂, hmkdir, h⟩ := bind_eq_ok.1 h
    rw [modify_bind_apply] at h
    cases o with
    | none => cases h
    | some d =>
      obtain ⟨e, -, -, rfl⟩ := bifsMkdir_ok hmkdir
      obtain ⟨i, j, -, -, rfl⟩ := procfsFiles_ok h
      simp [stackView, withStatsFile, withNameFile, Kernel.setProc]

theorem fillProc_stackView {pc sp ksp : ℕ} {name : Option (List UInt8)}
    (h : fillProc p pc name sp ksp k = .ok 0 k') :
    stackView p k' = (sp, setPerrno cfg sp, (k.procs p).upagetable, k.pte) := by
  rw [fillProc, get_bind_apply] at h
  simp only [modifyProc, setState, HobbyOs.store, modify_bind_apply] at h
  obtain ⟨status, k₁, hfiles, h⟩ := bind_eq_ok.1 h
  have hend : status = 0 ∧ stackView p k' = stackView p k₁ := by
    split at h
    · rename_i hne
      cases h
      exact absurd rfl hne
    · rename_i hzero
      obtain ⟨_, k₂, hcount, h⟩ := bind_eq_ok.1 h
      obtain ⟨-, _, hmodify, rfl⟩ := withLock_eq_ok.1 hcount
      cases hmodify
      cases h
      exact ⟨not_not.1 hzero, rfl⟩
  obtain ⟨rfl, hsame⟩ := hend
  rw [hsame, initProcfsFiles_stackView hfiles]
  simp [stackView, Kernel.setState, Kernel.setProc, freshProc]

/-- A freshly initialised process has its stack page. -/
theorem initProc_freshStack (hplaced : Placed cfg) (hsizes : StackSizes cfg) {pc : ℕ}
    {name : Option (List UInt8)}
    (h : initProc p pc name k = .ok 0 k') : FreshStack p k' := by
  obtain ⟨_, k₁, -, h⟩ := bind_eq_ok.1 h
  simp only [modifyProc, modify_bind_apply] at h
  obtain ⟨o, k₂, hpages, h⟩ := bind_eq_ok.1 h
  cases o with
  | none => cases h
  | some pages =>
    obtain ⟨hpage, hmaps⟩ := initProcPages_maps hplaced hsizes hpages
    have hview := fillProc_stackView h
    simp only [stackView, Prod.mk.injEq] at hview
    obtain ⟨hsp, hperrno, htable, hpte⟩ := hview
    refine ⟨hsp ▸ hpage, hsp ▸ hperrno, fun x hx hlt => ?_⟩
    rw [hsp] at hx hlt
    rw [va2pa, hpte, htable]
    exact hmaps x hx hlt

theorem FreshStack.congr (h : FreshStack p k) (hview : stackView p k' = stackView p k) : FreshStack p k' := by
  simp only [stackView, Prod.mk.injEq] at hview
  obtain ⟨hsp, hperrno, htable, hpte⟩ := hview
  refine ⟨hsp ▸ h.page, by rw [hperrno, hsp, h.perrno], fun x hx hlt => ?_⟩
  rw [hsp] at hx hlt
  rw [va2pa, hpte, htable]
  exact h.maps x hx hlt

/-! ## What the process finds -/

/-- The `n` bytes at the address `va` of `p` are those at `pa`, in its stack page. -/
structure OnStack (p : Slot cfg) (k : Kernel cfg) (va pa n : ℕ) : Prop where
  low : (k.procs p).stackPage ≤ pa
  high : pa + n ≤ (k.procs p).stackPage + cfg.userStackSize
  addr : ∀ i < n, va2pa k (k.procs p).upagetable (va + i) = pa + i

/-- `p` starts with its arguments: the array is at `arr`, the string `i` at `str i`. -/
structure Receives (p : Slot cfg) (k : Kernel cfg) (args : List (List UInt8)) (arr : ℕ) (str : ℕ → ℕ) :
    Prop where
  argc : (k.procs p).trap.regs TrapFrame.a0 = args.length
  array : OnStack p k ((k.procs p).trap.regs TrapFrame.a1) arr (cfg.regSz * args.length + cfg.regSz)
  pointer : ∀ i (h : i < args.length),
    OnStack p k (loadWord k.mem (arr + cfg.regSz * i) cfg.regSz) (str i) (args[i].length + 1)
  null : loadWord k.mem (arr + cfg.regSz * args.length) cfg.regSz = 0
  string : ∀ i (h : i < args.length), Stored k.mem (str i) (args[i] ++ [0])
  apart : ∀ i (hi : i < args.length) j (hj : j < args.length), i ≠ j →
    Outside (str i) (str i + (args[i].length + 1)) (str j) (args[j].length + 1)
  array_apart : ∀ i (h : i < args.length),
    Outside arr (arr + (cfg.regSz * args.length + cfg.regSz)) (str i) (args[i].length + 1)
  errno_apart : ∀ i (h : i < args.length),
    Outside (k.procs p).perrno ((k.procs p).perrno + cfg.regSz) (str i) (args[i].length + 1)
  errno_array : Outside (k.procs p).perrno ((k.procs p).perrno + cfg.regSz) arr
    (cfg.regSz * args.length + cfg.regSz)
  aligned : (k.procs p).trap.regs TrapFrame.sp % 16 = 0
  sp_le_array : (k.procs p).trap.regs TrapFrame.sp ≤ (k.procs p).trap.regs TrapFrame.a1
  sp_le_string : ∀ i < args.length,
    (k.procs p).trap.regs TrapFrame.sp ≤ loadWord k.mem (arr + cfg.regSz * i) cfg.regSz
  sp_le_errno : ∃ va, OnStack p k va (k.procs p).perrno cfg.regSz ∧
    (k.procs p).trap.regs TrapFrame.sp ≤ va

theorem FreshStack.onStack (h : FreshStack p k) (hbase : StackBase cfg (k.procs p).stackPage) {x n : ℕ}
    (hx : (k.procs p).stackPage ≤ x) (htop : x + n ≤ (k.procs p).stackPage + cfg.userStackSize) :
    OnStack p k (cfg.usrStkVirt x) x n := by
  refine ⟨hx, htop, fun i hi => ?_⟩
  have hadd : cfg.usrStkVirt x + i = cfg.usrStkVirt (x + i) := by
    cases hmmu : cfg.mmu with
    | false => rw [usrStkVirt_of_noMmu hmmu, usrStkVirt_of_noMmu hmmu]
    | true =>
      obtain ⟨⟨q, hq⟩, -⟩ := hbase.aligned hmmu
      have hsize := hbase.size
      rw [usrStkVirt_of_mmu hmmu, usrStkVirt_of_mmu hmmu]
      omega
  rw [hadd]
  exact h.maps (x + i) (by omega) (by omega)

/-- The registers and the stack of `p` after `inject_argv`, with the array at `arr`. -/
structure Holding (p : Slot cfg) (k : Kernel cfg) (args : List (List UInt8)) (arr : ℕ) : Prop where
  fresh : FreshStack p k
  argc : (k.procs p).trap.regs TrapFrame.a0 = args.length
  array : (k.procs p).trap.regs TrapFrame.a1 = cfg.usrStkVirt arr
  stack : (k.procs p).trap.regs TrapFrame.sp = stkRound (cfg.usrStkVirt (arr - spannedAll args))
  injected : Injected cfg k.mem arr args args.length
  null : Stored k.mem (arr + cfg.regSz * args.length) (bytesOfWord 0 cfg.regSz)

/-- The arguments are there if they are all in the stack page, below the word for
    `errno`. -/
theorem Holding.receives (h : Holding p k args arr) (hbase : StackBase cfg (k.procs p).stackPage)
    (htop : arr + (cfg.regSz * args.length + 2 * cfg.regSz) = (k.procs p).stackPage + cfg.userStackSize)
    (hroom : (k.procs p).stackPage + spannedAll args ≤ arr) : Receives p k args arr (strBelow arr args) := by
  have hw := hbase.regSz
  have hperrno := h.fresh.perrno
  rw [setPerrno] at hperrno
  -- The strings lie between the start of the page and the array.
  have hstr : ∀ i (hi : i < args.length), arr - spannedAll args ≤ strBelow arr args i ∧
      strBelow arr args i + (args[i].length + 1) ≤ arr := by
    intro i hi
    have hle : spanned args (i + 1) ≤ spannedAll args := spanned_le_all hi
    have hbelow : spannedAll args ≤ arr := by omega
    have hend := strBelow_add hi hbelow
    refine ⟨?_, by omega⟩
    rw [strBelow]
    omega
  have hpointer : ∀ i < args.length, loadWord k.mem (arr + cfg.regSz * i) cfg.regSz =
      cfg.usrStkVirt (strBelow arr args i) := by
    intro i hi
    have := hstr i hi
    rw [(h.injected.pointer i hi).loadWord, Nat.mod_eq_of_lt (hbase.usrStkVirt_lt (by omega))]
  -- Rounding takes the stack pointer further down.
  have hsp : ∀ x, arr - spannedAll args ≤ x → x < (k.procs p).stackPage + cfg.userStackSize →
      (k.procs p).trap.regs TrapFrame.sp ≤ cfg.usrStkVirt x := by
    intro x hx hlt
    rw [h.stack]
    exact (Nat.sub_le _ _).trans (hbase.usrStkVirt_le hx (fun _ => by omega) hlt)
  refine ⟨h.argc, ?_, fun i hi => ?_, ?_, fun i hi => h.injected.string i hi hi, fun i hi j hj hne => ?_,
    fun i hi => ?_, fun i hi => ?_, ?_, ?_, ?_, fun i hi => ?_, ?_⟩
  · rw [h.array]
    exact h.fresh.onStack hbase (by omega) (by omega)
  · have := hstr i hi
    rw [hpointer i hi]
    exact h.fresh.onStack hbase (by omega) (by omega)
  · rw [h.null.loadWord, Nat.zero_mod]
  · rcases Nat.lt_or_gt_of_ne hne with hlt | hlt
    · exact .inl (strBelow_lt (by omega) hj hlt)
    · exact .inr (strBelow_lt (by omega) hi hlt)
  · exact .inl (hstr i hi).2
  · have := hstr i hi
    exact .inl (by omega)
  · exact .inl (by omega)
  · rw [h.stack, stkRound]
    omega
  · rw [h.array]
    exact hsp arr (by omega) (by omega)
  · have := hstr i hi
    rw [hpointer i hi]
    exact hsp _ this.1 (by omega)
  · exact ⟨_, h.fresh.onStack hbase (by omega) (by omega), hsp _ (by omega) (by omega)⟩

/-- `inject_argv` in a process whose stack is as `init_proc` has left it. -/
theorem injectArgv_holding (hfresh : FreshStack p k) {arr : ℕ} (hroom : spannedAll args ≤ arr)
    (harr : (k.procs p).perrno - cfg.regSz * (args.length + 1) = arr) :
    ∃ k', injectArgv p args k = .ok () k' ∧ Holding p k' args arr ∧
      (k'.procs p).stackPage = (k.procs p).stackPage := by
  obtain ⟨mem', hloop, hinjected, hnull⟩ :=
    injectLoop_ok (k := k) (i := 0) hroom rfl (Nat.zero_le _) (injected_zero cfg k.mem arr args)
  have hstart : injectLoop args arr arr k = .ok (arr - spannedAll args) { k with mem := mem' } := hloop
  set x : Proc cfg := { k.procs p with
    trap := (((k.procs p).trap.set TrapFrame.sp (stkRound (cfg.usrStkVirt (arr - spannedAll args)))).set
      TrapFrame.a0 args.length).set TrapFrame.a1 (cfg.usrStkVirt arr) }
  have hrun : injectArgv p args k = .ok () ({ k with mem := mem' }.setProc p x) := by
    rw [injectArgv, get_bind_apply, harr, bind_ok hstart]
    rfl
  have hself : ({ k with mem := mem' }.setProc p x).procs p = x := Function.update_self ..
  refine ⟨_, hrun, ⟨hfresh.congr ?_, ?_, ?_, ?_, hinjected, hnull⟩, ?_⟩
  · rw [stackView, hself]
    rfl
  · rw [hself]
    rfl
  · rw [hself]
    rfl
  · rw [hself]
    rfl
  · rw [hself]

section

variable (hplaced : Placed cfg) (hup : RoundsUp cfg) (hsizes : StackSizes cfg)
include hplaced hup hsizes

/-- A freshly initialised process finds the arguments that `inject_argv` gives it, if
    they fit into its stack page. -/
theorem injectArgv_receives {pc : ℕ} {name : Option (List UInt8)} (hinit : initProc p pc name k = .ok 0 k')
    (hfit : needed cfg args ≤ cfg.userStackSize) :
    ∃ k₁ arr str, injectArgv p args k' = .ok () k₁ ∧ Receives p k₁ args arr str := by
  have hfresh := initProc_freshStack hplaced hsizes hinit
  obtain ⟨j, hpage⟩ := hfresh.page
  have hbase := stackBase_pagePtr hplaced hup hsizes j
  rw [← hpage] at hbase
  have hw := hbase.regSz
  have hperrno := hfresh.perrno
  have hall : (args.map fun s => s.length + 1).sum = spannedAll args := by
    rw [spannedAll, spanned, sumTo, List.take_length]
  rw [needed, hall] at hfit
  rw [setPerrno] at hperrno
  obtain ⟨arr, harr⟩ : ∃ arr, (k'.procs p).perrno - cfg.regSz * (args.length + 1) = arr := ⟨_, rfl⟩
  have htop : arr + (cfg.regSz * args.length + 2 * cfg.regSz) = (k'.procs p).stackPage + cfg.userStackSize := by
    rw [Nat.mul_succ] at harr
    omega
  have hbelow : spannedAll args ≤ arr := by omega
  obtain ⟨k₁, hrun, hholding, hsame⟩ := injectArgv_holding hfresh hbelow harr
  rw [← hsame] at hbase htop
  exact ⟨k₁, arr, _, hrun, hholding.receives hbase htop (by omega)⟩

end

/-- The shell gets a script, in the page that a boot takes for it. -/
theorem script_received : ∃ (k k' : Kernel .qemuVirt) (arr : ℕ) (str : ℕ → ℕ),
    injectArgv ⟨0, by decide⟩ [ascii "sh", ascii "-f", ascii "/home/smoke-test.sh"] k = .ok () k' ∧
      Receives ⟨0, by decide⟩ k' [ascii "sh", ascii "-f", ascii "/home/smoke-test.sh"] arr str := by
  obtain ⟨k, hinit⟩ := value_eq_some (r := initProc ⟨0, by decide⟩ 0 (some (ascii "sh"))
    (initKernel .qemuVirt fun _ => 0)) (a := 0) (by decide +kernel)
  have hfit : needed .qemuVirt [ascii "sh", ascii "-f", ascii "/home/smoke-test.sh"] ≤
      Config.userStackSize .qemuVirt := by
    decide
  obtain ⟨k', arr, str, hrun, hreceives⟩ :=
    injectArgv_receives ⟨by decide, by decide, by decide, by decide, by decide⟩
    (by unfold RoundsUp; decide) ⟨.inr rfl, fun _ => rfl, .inr rfl, .inr rfl⟩ hinit hfit
  exact ⟨k, k', arr, str, hrun, hreceives⟩

end HobbyOs
