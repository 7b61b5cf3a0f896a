import HobbyOs.Argv

/-!
# Where `copy_argv` stores

`copy_argv` goes down from the end of the new stack page, by two bytes more than
the length of each string, and does not look where the page starts. So what it
stores (`execvStores`) is in the page if and only if the arguments fit
(`execv_inside_iff`); otherwise it goes on in the pages below.

* `argvStores`: the stores of a run of `copy_argv`, in turn. They are all that it
  does to the memory (`execvStores_mem`).
-/

namespace HobbyOs

open Outcome Transition

variable {cfg : Config} {p : Slot cfg} {k k' : Kernel cfg} {mem : ℕ → UInt8} {args : List (List UInt8)}
  {a sp base hi : ℕ} {s : List UInt8}

/-! ## The stores -/

/-- The memory after some stores: the address of each, and its bytes. -/
def storeAll (mem : ℕ → UInt8) (stores : List (ℕ × List UInt8)) : ℕ → UInt8 :=
  stores.foldl (fun mem st => storeBytes mem st.1 st.2) mem

/-- The string that a pointer leads to. -/
def stringAt (cfg : Config) (mem : ℕ → UInt8) (str : ℕ) : Option (List UInt8) :=
  if str = 0 then none else cString mem (cfg.memEnd - str) str

/-- The stores of the loop of `copy_argv`, from the memory `mem` on, with the
    translation `tr`. -/
def loopStores (cfg : Config) (tr : ℕ → ℕ) (argv sp : ℕ) :
    List ℕ → ℕ → (ℕ → UInt8) → List (ℕ × List UInt8)
  | [], _, _ => []
  | i :: is, spc, mem =>
    match stringAt cfg mem (tr (loadWord mem (argv + cfg.regSz * i) cfg.regSz)) with
    | none => []
    | some s =>
      let dst := spc - 1 - s.length
      let word := bytesOfWord (cfg.usrStkVirt dst) cfg.regSz
      (dst, s ++ [0, 0]) :: (sp + cfg.regSz * i, word) :: loopStores cfg tr argv sp is (dst - 1)
        (storeBytes (storeBytes mem dst (s ++ [0, 0])) (sp + cfg.regSz * i) word)

/-- The stores of `copy_argv`. -/
def argvStores (k : Kernel cfg) (pt sp argc argv : ℕ) : List (ℕ × List UInt8) :=
  if argc = 0 ∨ argv = 0 then []
  else
    let null := bytesOfWord 0 cfg.regSz
    let arr := sp - cfg.regSz - cfg.regSz * argc
    (sp, null) :: loopStores cfg (va2pa k pt) argv arr (List.range argc) (arr - 1) (storeBytes k.mem sp null)

/-- The stores of `copy_argv` in a call of `proc_execv`, with the page `j` for the
    new stack. -/
def execvStores (p : Slot cfg) (argv : ℕ) (k : Kernel cfg) (j : Fin cfg.numPages) :
    List (ℕ × List UInt8) :=
  let argv := va2pa k (k.procs p).upagetable argv
  match if argv = 0 then some 0 else lenArgv k argv (cfg.memEnd - argv) with
  | none => []
  | some argc =>
    argvStores k (k.procs p).upagetable (cfg.pagePtr j + cfg.userStackSize - 2 * cfg.regSz) argc argv

theorem readString_ok {str : ℕ} (h : readString str k = .ok s k') :
    stringAt cfg k.mem str = some s ∧ k' = k := by
  rw [readString, get_bind_apply] at h
  cases hs : stringAt cfg k.mem str with
  | none =>
    rw [stringAt] at hs
    rw [hs] at h
    cases h
  | some t =>
    rw [stringAt] at hs
    rw [hs] at h
    cases h
    exact ⟨rfl, rfl⟩

/-- The loop does to the memory what its stores do, and nothing else. -/
theorem copyArgvLoop_mem {is : List ℕ} {spc r : ℕ} (h : copyArgvLoop p a sp is spc k = .ok r k') :
    k' =
      { k with mem := storeAll k.mem (loopStores cfg (va2pa k (k.procs p).upagetable) a sp is spc k.mem) } := by
  induction is generalizing k spc with
  | nil =>
    cases h
    rfl
  | cons i is ih =>
    rw [copyArgvLoop, get_bind_apply] at h
    obtain ⟨s, k₁, hs, hrest⟩ := bind_eq_ok.1 h
    obtain ⟨hs, rfl⟩ := readString_ok hs
    rw [store, modify_bind_apply, store, modify_bind_apply] at hrest
    rw [ih hrest, loopStores, hs]
    rfl

theorem copyArgv_mem {argc : ℕ} {r : ℕ × ℕ} (h : copyArgv p sp argc a k = .ok r k') :
    k' = { k with mem := storeAll k.mem (argvStores k (k.procs p).upagetable sp argc a) } := by
  rw [copyArgv] at h
  rw [argvStores]
  split_ifs at h ⊢ with hnone
  · cases h
    rfl
  · rw [store, modify_bind_apply] at h
    obtain ⟨spc, k₁, hloop, h⟩ := bind_eq_ok.1 h
    cases h
    exact copyArgvLoop_mem hloop

theorem SameView.argvStores (h : SameView p k k') (sp argc a : ℕ) :
    HobbyOs.argvStores k' (k'.procs p).upagetable sp argc a =
      HobbyOs.argvStores k (k.procs p).upagetable sp argc a := by
  rw [HobbyOs.argvStores, HobbyOs.argvStores, h.mem, show va2pa k' (k'.procs p).upagetable =
    _ from funext h.va2pa_eq]

/-- What a call of `proc_execv` that finds the program does to the memory is what the
    stores of `copy_argv` do. -/
theorem execvStores_mem {filename argv : ℕ} {n : ℤ} {j : Fin cfg.numPages}
    (h : procExecv p filename argv k = .ok n k')
    (hfinds : FindsProgram p k filename) (hj : freePage k = some j) :
    k'.mem = storeAll k.mem (execvStores p argv k j) := by
  obtain ⟨argc, r, k₁, k₂, hview, -, hlen, hcopy, hstarts, -⟩ := procExecv_runs h hfinds hj
  rw [hstarts.mem, copyArgv_mem hcopy, hview.argvStores, execvStores, hlen]
  exact congrArg (storeAll · _) hview.mem

/-! ## Inside the page -/

/-- A store is inside a range. -/
def Inside (lo hi : ℕ) (st : ℕ × List UInt8) : Prop := lo ≤ st.1 ∧ st.1 + st.2.length ≤ hi

theorem Inside.sameOutside {lo b : ℕ} {bs : List UInt8} (h : Inside lo hi (b, bs)) :
    SameOutside lo hi mem (storeBytes mem b bs) := sameOutside_store h.1 h.2

/-- The stores of the loop of `copy_argv` are inside the page if and only if the
    strings fit below the array. -/
theorem loopStores_inside_iff {i m spc r : ℕ} (him : i + m = args.length) (hspc : spc = sp - taken args i - 1)
    (hroom : base + taken args i ≤ sp) (hbase : 0 < base) (hargs : ArgsAt k (k.procs p).upagetable a args)
    (hout : ArgsOutside k (k.procs p).upagetable a args base hi) (hhi : sp + cfg.regSz * args.length ≤ hi)
    (h : copyArgvLoop p a sp (List.range' i m) spc k = .ok r k') :
    (∀ st ∈ loopStores cfg (va2pa k (k.procs p).upagetable) a sp (List.range' i m) spc k.mem,
      Inside base hi st) ↔
      base + takenAll args ≤ sp := by
  induction m generalizing i spc k with
  | zero =>
    obtain rfl : i = args.length := him
    exact iff_of_true (fun _ hst => absurd hst List.not_mem_nil) hroom
  | succ m ih =>
    have hlt : i < args.length := by omega
    rw [List.range'_succ, copyArgvLoop, get_bind_apply] at h
    obtain ⟨s, k₁, hs, hrest⟩ := bind_eq_ok.1 h
    obtain ⟨rfl, rfl⟩ := (hargs.string i hlt).readString (hargs.nul_free _ (List.getElem_mem hlt)) hs
    rw [List.range'_succ, loopStores, (readString_ok hs).1]
    dsimp only
    have htaken := taken_succ hlt
    have hword : sp + cfg.regSz * i + cfg.regSz ≤ sp + cfg.regSz * args.length := word_add_le hlt
    have hdst : spc - 1 - args[i].length = sp - taken args (i + 1) := by omega
    rw [hdst] at hrest ⊢
    -- The next string is the first that may be too low; if it fits, so do both of its
    -- stores.
    by_cases hfit : base + taken args (i + 1) ≤ sp
    · have hlen : (args[i] ++ [0, 0]).length = args[i].length + 2 := by simp
      have hinside : Inside base hi (sp - taken args (i + 1), args[i] ++ [0, 0]) := by
        refine ⟨?_, ?_⟩
        · show base ≤ sp - taken args (i + 1)
          omega
        · show sp - taken args (i + 1) + (args[i] ++ [0, 0]).length ≤ hi
          omega
      have hinside' : Inside base hi
          (sp + cfg.regSz * i, bytesOfWord (cfg.usrStkVirt (sp - taken args (i + 1))) cfg.regSz) := by
        refine ⟨?_, ?_⟩
        · show base ≤ sp + cfg.regSz * i
          omega
        · show sp + cfg.regSz * i + (bytesOfWord _ cfg.regSz).length ≤ hi
          rw [length_bytesOfWord]
          omega
      rw [store, modify_bind_apply, store, modify_bind_apply] at hrest
      set mem₂ :=
        storeBytes (storeBytes k₁.mem (sp - taken args (i + 1)) (args[i] ++ [0, 0])) (sp + cfg.regSz * i)
        (bytesOfWord (cfg.usrStkVirt (sp - taken args (i + 1))) cfg.regSz)
      have hkept : SameOutside base hi k₁.mem mem₂ := hinside.sameOutside.trans hinside'.sameOutside
      -- Stores inside the page leave the arguments, which are outside, as they were.
      have hnext :=
        ih (k := { k₁ with mem := mem₂ }) (i := i + 1) (by omega) rfl hfit (hargs.kept hkept rfl hout)
        (hout.kept hkept rfl) hrest
      rw [List.forall_mem_cons, List.forall_mem_cons, and_iff_right hinside, and_iff_right hinside']
      exact hnext
    · -- The string goes below the page.
      refine iff_of_false (fun hall => hfit ?_) fun hall => hfit ?_
      · have hlow : base ≤ sp - taken args (i + 1) := (hall _ List.mem_cons_self).1
        omega
      · have : taken args (i + 1) ≤ takenAll args := taken_le_all hlt
        omega

/-- The stores of `copy_argv` are inside the page if and only if the arguments fit. -/
theorem argvStores_inside_iff {r : ℕ × ℕ} (hbase : StackBase cfg base) (ha : a ≠ 0)
    (hargs : ArgsAt k (k.procs p).upagetable a args)
    (hout : ArgsOutside k (k.procs p).upagetable a args base (base + cfg.userStackSize))
    (h : copyArgv p (base + cfg.userStackSize - 2 * cfg.regSz) args.length a k = .ok r k') :
    (∀ st ∈ argvStores k (k.procs p).upagetable (base + cfg.userStackSize - 2 * cfg.regSz) args.length a,
      Inside base (base + cfg.userStackSize) st) ↔ args = [] ∨ room cfg args ≤ cfg.userStackSize := by
  by_cases hne : args = []
  · subst hne
    rw [argvStores, if_pos (.inl List.length_nil)]
    exact iff_of_true (fun _ hst => absurd hst List.not_mem_nil) (.inl rfl)
  have hnone : ¬(args.length = 0 ∨ a = 0) := by simp [ha, hne]
  have hw := hbase.regSz
  have hsize := hbase.size
  have hle := hbase.size_le
  rw [argvStores, if_neg hnone, or_iff_right hne]
  rw [copyArgv, if_neg hnone, store, modify_bind_apply] at h
  obtain ⟨spc, k₁, hloop, -⟩ := bind_eq_ok.1 h
  dsimp only
  set top := base + cfg.userStackSize - 2 * cfg.regSz with htop
  have hnull : Inside base (base + cfg.userStackSize) (top, bytesOfWord 0 cfg.regSz) := by
    refine ⟨?_, ?_⟩
    · show base ≤ top
      omega
    · show top + (bytesOfWord 0 cfg.regSz).length ≤ _
      rw [length_bytesOfWord]
      omega
  have hkept : SameOutside base (base + cfg.userStackSize) k.mem
      (storeBytes k.mem top (bytesOfWord 0 cfg.regSz)) :=
    hnull.sameOutside
  set k₀ : Kernel cfg := { k with mem := storeBytes k.mem top (bytesOfWord 0 cfg.regSz) }
  have hargs₀ : ArgsAt k₀ (k₀.procs p).upagetable a args := hargs.kept hkept rfl hout
  have hout₀ : ArgsOutside k₀ (k₀.procs p).upagetable a args base (base + cfg.userStackSize) :=
    hout.kept hkept rfl
  rw [List.forall_mem_cons, and_iff_right hnull]
  rw [List.range_eq_range'] at hloop ⊢
  set arr := top - cfg.regSz - cfg.regSz * args.length with harr
  -- The array fits, and then it is up to the strings; or its first word is below the
  -- page.
  by_cases hfit : cfg.regSz * args.length + 3 * cfg.regSz ≤ cfg.userStackSize
  · have hiff :=
      loopStores_inside_iff (i := 0) (by omega) (by simp [taken]) (by simp only [taken]; simp; omega) (by omega)
      hargs₀ hout₀ (by omega) hloop
    rw [room]
    refine hiff.trans ?_
    omega
  · -- The array starts below the page.
    refine iff_of_false (fun hall => ?_) fun hroom => hfit ?_
    · obtain ⟨m, hm⟩ := Nat.exists_eq_succ_of_ne_zero (not_or.1 hnone).1
      rw [hm, Nat.succ_eq_add_one, List.range'_succ] at hloop hall
      rw [copyArgvLoop, get_bind_apply] at hloop
      obtain ⟨s, k₂, hs, -⟩ := bind_eq_ok.1 hloop
      have hstring : stringAt cfg k₀.mem (va2pa k (k.procs p).upagetable
          (loadWord k₀.mem (a + cfg.regSz * 0) cfg.regSz)) = some s := (readString_ok hs).1
      rw [loopStores, hstring] at hall
      have hlow : base ≤ arr + cfg.regSz * 0 := (hall _ (List.mem_cons_of_mem _ List.mem_cons_self)).1
      omega
    · rw [room] at hroom
      omega

/-- The vector that `p` passes has these arguments, or there is none. It is not in
    the page that is free for the new stack. -/
structure PassesVector (p : Slot cfg) (k : Kernel cfg) (argv : ℕ) (args : List (List UInt8)) : Prop where
  none : va2pa k (k.procs p).upagetable argv = 0 → args = []
  vector : va2pa k (k.procs p).upagetable argv ≠ 0 →
    ArgsAt k (k.procs p).upagetable (va2pa k (k.procs p).upagetable argv) args
  outside : va2pa k (k.procs p).upagetable argv ≠ 0 → ∀ j, freePage k = some j →
    ArgsOutside k (k.procs p).upagetable (va2pa k (k.procs p).upagetable argv) args (cfg.pagePtr j)
      (cfg.pagePtr j + cfg.userStackSize)

/-- `proc_execv` stores the arguments inside the new stack page, or fails and leaves
    the memory alone, if and only if it does not get as far as to copy them, or there
    are none, or they fit with the word for `errno`. -/
theorem execv_inside_iff (hplaced : Placed cfg) (hup : RoundsUp cfg) (hsizes : StackSizes cfg)
    {filename argv : ℕ}
    {n : ℤ} (h : procExecv p filename argv k = .ok n k') (hargs : PassesVector p k argv args) :
    ((∀ j, FindsProgram p k filename → freePage k = some j → ∀ st ∈ execvStores p argv k j,
      Inside (cfg.pagePtr j) (cfg.pagePtr j + cfg.userStackSize) st) ∨ n = -1 ∧ k'.mem = k.mem) ↔
    (FindsProgram p k filename → args = [] ∨ room cfg args ≤ cfg.userStackSize) := by
  by_cases hfinds : FindsProgram p k filename
  · obtain ⟨j, hj⟩ := Option.ne_none_iff_exists'.1 hfinds.page
    have hbase := stackBase_pagePtr hplaced hup hsizes j
    obtain ⟨argc, r, k₁, k₂, hview, -, hlen, hcopy, -, hn⟩ := procExecv_runs h hfinds hj
    rw [forall_prop_of_true hfinds, or_iff_left fun hfail => ?_]
    · have hstores : execvStores p argv k j = argvStores k (k.procs p).upagetable
          (cfg.pagePtr j + cfg.userStackSize - 2 * cfg.regSz) argc (va2pa k (k.procs p).upagetable argv) := by
        rw [execvStores, hlen]
      -- The page is the first free one: there is but one `j`.
      have hone :
            (∀ j', FindsProgram p k filename → freePage k = some j' → ∀ st ∈ execvStores p argv k j',
            Inside (cfg.pagePtr j') (cfg.pagePtr j' + cfg.userStackSize) st) ↔
          ∀ st ∈ execvStores p argv k j, Inside (cfg.pagePtr j) (cfg.pagePtr j + cfg.userStackSize) st := by
        refine ⟨fun hall => hall j hfinds hj, fun hall j' _ hj' => ?_⟩
        obtain rfl : j' = j := Option.some.inj (hj'.symm.trans hj)
        exact hall
      rw [hone, hstores]
      by_cases ha : va2pa k (k.procs p).upagetable argv = 0
      · rw [argvStores, if_pos (.inr ha)]
        exact iff_of_true (fun _ hst => absurd hst List.not_mem_nil) (.inl (hargs.none ha))
      · rw [if_neg ha] at hlen
        obtain rfl : argc = args.length := (hargs.vector ha).lenArgv hlen
        rw [← hview.argvStores]
        exact argvStores_inside_iff hbase ha (hview.argsAt (hargs.vector ha))
          (hview.argsOutside (hargs.outside ha j hj))
          hcopy
    · omega
  · exact iff_of_true (.inl fun j hf => absurd hf hfinds) fun hf => absurd hf hfinds

/-! ## Running a program -/

/-- The first process stores a string of 300 characters in its stack page, and passes
    it twice. -/
def storeLong : List (Event .qemuE) :=
  [.exec (callRegs 0x80003ff0 11 0x80001c20 0x80001c08 0)
    [(0x80001c08, bytesOfWord 0x80001c40 4 ++ bytesOfWord 0x80001c40 4 ++ bytesOfWord 0 4),
      (0x80001c20, ascii "ls" ++ [0]), (0x80001c40, List.replicate 300 97 ++ [0])]]

/-- The program is found, and the page `j` for its stack, and the vector that `p`
    passes has these arguments. -/
structure PassesTo (p : Slot cfg) (k : Kernel cfg) (filename argv : ℕ) (args : List (List UInt8))
    (j : Fin cfg.numPages) : Prop where
  finds : FindsProgram p k filename
  page : freePage k = some j
  ne_zero : va2pa k (k.procs p).upagetable argv ≠ 0
  vector : ArgsAt k (k.procs p).upagetable (va2pa k (k.procs p).upagetable argv) args
  outside : ArgsOutside k (k.procs p).upagetable (va2pa k (k.procs p).upagetable argv) args (cfg.pagePtr j)
    (cfg.pagePtr j + cfg.userStackSize)

instance (p : Slot cfg) (k : Kernel cfg) (filename : ℕ) : Decidable (FindsProgram p k filename) :=
  decidable_of_iff (_ ∧ _ ∧ _) ⟨fun h => ⟨h.1, h.2.1, h.2.2⟩, fun h => ⟨h.1, h.2, h.3⟩⟩

instance (p : Slot cfg) (k : Kernel cfg) (filename argv : ℕ) (args : List (List UInt8))
    (j : Fin cfg.numPages) :
    Decidable (PassesTo p k filename argv args j) :=
  decidable_of_iff (_ ∧ _ ∧ _ ∧ _ ∧ _)
    ⟨fun h => ⟨h.1, h.2.1, h.2.2.1, h.2.2.2.1, h.2.2.2.2⟩, fun h => ⟨h.1, h.2, h.3, h.4, h.5⟩⟩

theorem PassesTo.passesVector {filename argv : ℕ} {j : Fin cfg.numPages}
    (h : PassesTo p k filename argv args j) :
    PassesVector p k argv args := by
  refine ⟨fun hzero => absurd hzero h.ne_zero, fun _ => h.vector, fun _ j' hj => ?_⟩
  obtain rfl := Option.some.inj (hj.symm.trans h.page)
  exact h.outside

/-- The long strings go below the new stack page. -/
theorem execv_below :
    ¬∀ (m : Machine .qemuE) (p : Slot .qemuE) (k' : Kernel .qemuE) (filename argv : ℕ) (n : ℤ)
      (args : List (List UInt8)), Reach (machine .qemuE) free m → m.mode = .user → m.k.cpuProc = some p →
      procExecv p filename argv ((trap m).entry p) = .ok n k' →
      PassesVector p ((trap m).entry p) argv args →
      (∀ j, FindsProgram p ((trap m).entry p) filename → freePage ((trap m).entry p) = some j →
        ∀ st ∈ execvStores p argv ((trap m).entry p) j,
          Inside (Config.pagePtr .qemuE j) (Config.pagePtr .qemuE j + Config.userStackSize .qemuE) st) ∨
      n = -1 ∧ k'.mem = ((trap m).entry p).mem := by
  obtain ⟨m, hm, hmode, hcpu, hret, hpasses, st, hst, hbelow⟩ :
      ∃ m ∈ runFrom .qemuE ([Event.kernel, .kernel] ++ storeLong), m.mode = .user ∧
      m.k.cpuProc = some ⟨0, by decide⟩ ∧
      value (procExecv ⟨0, by decide⟩ 0x80001c20 0x80001c08 ((trap m).entry ⟨0, by decide⟩)) =
        some 2 ∧
      PassesTo ⟨0, by decide⟩ ((trap m).entry ⟨0, by decide⟩) 0x80001c20 0x80001c08
        [List.replicate 300 97, List.replicate 300 97] ⟨2, by decide⟩ ∧
      ∃ st ∈ execvStores ⟨0, by decide⟩ 0x80001c08 ((trap m).entry ⟨0, by decide⟩)
        ⟨2, by decide⟩,
        st.1 < Config.pagePtr .qemuE ⟨2, by decide⟩ := by
    decide +kernel
  obtain ⟨k', hret⟩ := value_eq_some hret
  intro hall
  rcases hall m _ k' _ _ 2 _ (reach_of_runFrom hm) hmode hcpu hret
    hpasses.passesVector with hinside | ⟨hn, -⟩
  · exact absurd (hinside _ hpasses.finds hpasses.page st hst).1 (Nat.not_le_of_lt hbelow)
  · exact absurd hn (by decide)

/-- A short string goes into the page. -/
theorem ls_inside : ∃ (m : Machine .qemuE) (k' : Kernel .qemuE), Reach (machine .qemuE) free m ∧
    procExecv ⟨0, by decide⟩ 0x80001c20 0x80001c10 ((trap m).entry ⟨0, by decide⟩) = .ok 1 k' ∧
    ∀ st ∈ execvStores ⟨0, by decide⟩ 0x80001c10 ((trap m).entry ⟨0, by decide⟩) ⟨2, by decide⟩,
      Inside (Config.pagePtr .qemuE ⟨2, by decide⟩)
        (Config.pagePtr .qemuE ⟨2, by decide⟩ + Config.userStackSize .qemuE) st := by
  obtain ⟨m, hm, hret, hpasses⟩ :
      ∃ m ∈ runFrom .qemuE ([Event.kernel, .kernel] ++ storeLs),
      value (procExecv ⟨0, by decide⟩ 0x80001c20 0x80001c10 ((trap m).entry ⟨0, by decide⟩)) =
        some 1 ∧
      PassesTo ⟨0, by decide⟩ ((trap m).entry ⟨0, by decide⟩) 0x80001c20 0x80001c10
        [ascii "ls"] ⟨2, by decide⟩ := by
    decide +kernel
  obtain ⟨k', hret⟩ := value_eq_some hret
  refine ⟨m, k', reach_of_runFrom hm, hret, ?_⟩
  rcases (execv_inside_iff ⟨by decide, by decide, by decide, by decide, by decide⟩
    (by unfold RoundsUp; decide)
    ⟨.inl rfl, fun h => absurd h (by decide), .inl rfl, .inl rfl⟩ hret hpasses.passesVector).2
    fun _ => .inr (by decide) with hinside | ⟨hn, -⟩
  · exact hinside _ hpasses.finds hpasses.page
  · exact absurd hn (by decide)

end HobbyOs
