import HobbyOs.Memory
import HobbyOs.Base
import HobbyOs.FileObjects
import HobbyOs.PageLedger

/-!
# Argument vectors

`proc_execv` gives the new program a stack page with its arguments at the top.
Below the word for `errno` come a null, a word that `copy_argv` leaves as it was,
the array of pointers, and the strings, the first one highest, each with two
zeros. So the null is one word too high, and what ends the array is whatever the
page had there. Without arguments, nothing is stored.

* `copyArgvLoop_ok`: what is in memory after the loop of `copy_argv`;
* `Delivers`: the new program finds its arguments;
* `execv_delivers_iff`: when it does.
-/

namespace HobbyOs

open Outcome Transition

variable {cfg : Config} {p : Slot cfg} {k k' : Kernel cfg} {mem : ℕ → UInt8} {args : List (List UInt8)}
  {a n sp : ℕ} {s : List UInt8}

/-! ## Reading a vector -/

/-- The vector at `a` in the memory of a process has these arguments: pointers to
    their strings, and a null. -/
structure ArgsAt (k : Kernel cfg) (pt a : ℕ) (args : List (List UInt8)) : Prop where
  pointer : ∀ i < args.length, loadWord k.mem (a + cfg.regSz * i) cfg.regSz ≠ 0
  null : loadWord k.mem (a + cfg.regSz * args.length) cfg.regSz = 0
  string : ∀ i (h : i < args.length),
    Stored k.mem (va2pa k pt (loadWord k.mem (a + cfg.regSz * i) cfg.regSz)) (args[i] ++ [0])
  nul_free : ∀ s ∈ args, 0 ∉ s

/-- The `n` bytes from `a` on are not in a range. -/
def Outside (lo hi a n : ℕ) : Prop := a + n ≤ lo ∨ hi ≤ a

/-- The vector and its strings are not in a range. -/
structure ArgsOutside (k : Kernel cfg) (pt a : ℕ) (args : List (List UInt8)) (lo hi : ℕ) : Prop where
  vector : Outside lo hi a (cfg.regSz * (args.length + 1))
  string : ∀ i (h : i < args.length),
    Outside lo hi (va2pa k pt (loadWord k.mem (a + cfg.regSz * i) cfg.regSz)) (args[i].length + 1)

instance (k : Kernel cfg) (pt a : ℕ) (args : List (List UInt8)) : Decidable (ArgsAt k pt a args) :=
  decidable_of_iff (_ ∧ _ ∧ _ ∧ _)
    ⟨fun h => ⟨h.1, h.2.1, h.2.2.1, h.2.2.2⟩, fun h => ⟨h.1, h.2, h.3, h.4⟩⟩

instance (lo hi a n : ℕ) : Decidable (Outside lo hi a n) := inferInstanceAs (Decidable (_ ∨ _))

instance (k : Kernel cfg) (pt a : ℕ) (args : List (List UInt8)) (lo hi : ℕ) :
    Decidable (ArgsOutside k pt a args lo hi) :=
  decidable_of_iff (_ ∧ _) ⟨fun h => ⟨h.1, h.2⟩, fun h => ⟨h.1, h.2⟩⟩

/-- The words before the null are counted. -/
theorem lenArgv_eq_some {c : ℕ} (h : lenArgv k a n = some c) :
    (∀ i < c, loadWord k.mem (a + cfg.regSz * i) cfg.regSz ≠ 0) ∧
      loadWord k.mem (a + cfg.regSz * c) cfg.regSz = 0 := by
  induction n generalizing a c with
  | zero => cases h
  | succ n ih =>
    rw [lenArgv] at h
    by_cases hzero : loadWord k.mem a cfg.regSz = 0
    · rw [if_pos hzero] at h
      cases h
      exact ⟨fun i hi => absurd hi (Nat.not_lt_zero i), hzero⟩
    · rw [if_neg hzero] at h
      obtain ⟨c, hc, rfl⟩ := Option.map_eq_some_iff.1 h
      obtain ⟨hwords, hnull⟩ := ih hc
      have hnext : ∀ i, a + cfg.regSz * (i + 1) = a + cfg.regSz + cfg.regSz * i := by
        intro i
        rw [Nat.mul_succ]
        omega
      refine ⟨fun i hi => ?_, by rw [hnext, hnull]⟩
      cases i with
      | zero => exact hzero
      | succ i =>
        rw [hnext]
        exact hwords i (Nat.lt_of_succ_lt_succ hi)

theorem ArgsAt.lenArgv {pt c : ℕ} (h : ArgsAt k pt a args) (hlen : lenArgv k a n = some c) :
    c = args.length := by
  obtain ⟨hwords, hnull⟩ := lenArgv_eq_some hlen
  refine le_antisymm (not_lt.1 fun hlt => hwords _ hlt h.null) (not_lt.1 fun hlt => h.pointer _ hlt hnull)

/-- A C string without a zero in it is read whole. -/
theorem Stored.cString_eq (h : Stored mem a (s ++ [0])) (hs : 0 ∉ s) {t : List UInt8}
    (hread : HobbyOs.cString mem n a = some t) : t = s := by
  induction s generalizing a n t with
  | nil =>
    cases n with
    | zero => cases hread
    | succ n =>
      rw [HobbyOs.cString, if_pos h.head] at hread
      exact (Option.some.inj hread).symm
  | cons x s ih =>
    rw [List.mem_cons, not_or] at hs
    cases n with
    | zero => cases hread
    | succ n =>
      rw [HobbyOs.cString, h.head, if_neg fun hx => hs.1 hx.symm] at hread
      obtain ⟨t, ht, rfl⟩ := Option.map_eq_some_iff.1 hread
      rw [ih h.tail hs.2 ht]

theorem Stored.readString (h : Stored k.mem a (s ++ [0])) (hs : 0 ∉ s) {t : List UInt8}
    (hread : readString a k = .ok t k') : t = s ∧ k' = k := by
  rw [HobbyOs.readString, get_bind_apply] at hread
  by_cases ha : a = 0
  · rw [if_pos ha] at hread
    cases hread
  · rw [if_neg ha] at hread
    cases hc : HobbyOs.cString k.mem (cfg.memEnd - a) a with
    | none =>
      rw [hc] at hread
      cases hread
    | some u =>
      rw [hc] at hread
      cases hread
      exact ⟨h.cString_eq hs hc, rfl⟩

/-- A word depends on its bytes. -/
theorem loadWord_congr {mem' : ℕ → UInt8} (h : ∀ x, a ≤ x → x < a + n → mem' x = mem x) :
    loadWord mem' a n = loadWord mem a n := by
  induction n generalizing a with
  | zero => rfl
  | succ n ih => rw [loadWord, loadWord, h a le_rfl (by omega), ih fun x hx hlt => h x (by omega) (by omega)]

/-- Memory has changed in a range only. -/
def SameOutside (lo hi : ℕ) (mem mem' : ℕ → UInt8) : Prop := ∀ x, x < lo ∨ hi ≤ x → mem' x = mem x

theorem Outside.loadWord {lo hi : ℕ} {mem' : ℕ → UInt8} (h : Outside lo hi a n)
    (hm : SameOutside lo hi mem mem') :
    HobbyOs.loadWord mem' a n = HobbyOs.loadWord mem a n :=
  loadWord_congr fun x hx hlt => hm x (h.imp (fun h => by omega) fun h => by omega)

section Kept

variable {pt lo hi : ℕ} (hm : SameOutside lo hi k.mem k'.mem)
include hm

theorem ArgsOutside.word (h : ArgsOutside k pt a args lo hi) {i : ℕ} (hi : i ≤ args.length) :
    loadWord k'.mem (a + cfg.regSz * i) cfg.regSz = loadWord k.mem (a + cfg.regSz * i) cfg.regSz := by
  have hle := Nat.mul_le_mul_left cfg.regSz hi
  have hvector := h.vector
  refine Outside.loadWord ?_ hm
  rw [Outside, Nat.mul_succ] at *
  omega

variable (hpte : k'.pte = k.pte)
include hpte

theorem ArgsOutside.va2pa_word (h : ArgsOutside k pt a args lo hi) {i : ℕ} (hi : i ≤ args.length) :
    va2pa k' pt (loadWord k'.mem (a + cfg.regSz * i) cfg.regSz) =
      va2pa k pt (loadWord k.mem (a + cfg.regSz * i) cfg.regSz) := by
  rw [h.word hm hi, va2pa, va2pa, hpte]

theorem ArgsOutside.kept (h : ArgsOutside k pt a args lo hi) : ArgsOutside k' pt a args lo hi := by
  refine ⟨h.vector, fun i hi => ?_⟩
  rw [h.va2pa_word hm hpte hi.le]
  exact h.string i hi

/-- A vector is not changed by what is stored elsewhere. -/
theorem ArgsAt.kept (h : ArgsAt k pt a args) (hout : ArgsOutside k pt a args lo hi) : ArgsAt k' pt a args := by
  constructor
  · intro i hi
    rw [hout.word hm hi.le]
    exact h.pointer i hi
  · rw [hout.word hm le_rfl]
    exact h.null
  · intro i hi j hj
    have hstring := hout.string i hi
    rw [hout.va2pa_word hm hpte hi.le, hm _ ?_]
    · exact h.string i hi j hj
    · rw [List.length_append, List.length_singleton] at hj
      rw [Outside] at hstring
      omega
  · exact h.nul_free

end Kept

/-! ## The layout -/

section

variable {α : Type} {f : α → ℕ} {l : List α} {i : ℕ}

/-- The sum over the first `i` elements. -/
def sumTo (f : α → ℕ) (l : List α) (i : ℕ) : ℕ := ((l.take i).map f).sum

theorem sumTo_succ (h : i < l.length) : sumTo f l (i + 1) = sumTo f l i + f l[i] := by
  rw [sumTo, sumTo, List.take_succ_eq_append_getElem h, List.map_append, List.sum_append]
  rfl

theorem sumTo_mono (f : α → ℕ) (l : List α) : Monotone (sumTo f l) := by
  refine monotone_nat_of_le_succ fun i => ?_
  by_cases h : i < l.length
  · rw [sumTo_succ h]
    exact Nat.le_add_right _ _
  · rw [sumTo, sumTo, List.take_of_length_le (not_lt.1 h), List.take_of_length_le (by omega)]

end

/-- The bytes that `copy_argv` uses for the first `i` strings. -/
def taken (args : List (List UInt8)) (i : ℕ) : ℕ := ((args.take i).map fun s => s.length + 2).sum

/-- Where the string `i` is copied to, below the array at `sp`. -/
def strAt (sp : ℕ) (args : List (List UInt8)) (i : ℕ) : ℕ := sp - taken args (i + 1)

theorem taken_succ {i : ℕ} (h : i < args.length) : taken args (i + 1) = taken args i + (args[i].length + 2) :=
  sumTo_succ h

theorem taken_mono (args : List (List UInt8)) : Monotone (taken args) := sumTo_mono _ args

/-- All strings together. -/
abbrev takenAll (args : List (List UInt8)) : ℕ := taken args args.length

theorem taken_le_all {i : ℕ} (h : i ≤ args.length) : taken args i ≤ takenAll args := taken_mono args h

/-- The block of a string ends where the one before it starts. -/
theorem strAt_add {i : ℕ} (h : i < args.length) (hroom : takenAll args ≤ sp) :
    strAt sp args i + (args[i].length + 2) = sp - taken args i := by
  have hle : taken args (i + 1) ≤ takenAll args := taken_le_all h
  rw [taken_succ h] at hle
  rw [strAt, taken_succ h]
  omega

/-- The first `i` arguments are in place, with the array at `sp`. -/
structure Copied (cfg : Config) (mem : ℕ → UInt8) (sp : ℕ) (args : List (List UInt8)) (i : ℕ) :
    Prop where
  string : ∀ j (h : j < args.length), j < i → Stored mem (strAt sp args j) (args[j] ++ [0, 0])
  pointer : ∀ j < i,
    Stored mem (sp + cfg.regSz * j) (bytesOfWord (cfg.usrStkVirt (strAt sp args j)) cfg.regSz)

/-- Words of an array do not overlap. -/
theorem word_add_le {w i j : ℕ} (h : i < j) : sp + w * i + w ≤ sp + w * j := by
  have := Nat.mul_le_mul_left w (Nat.succ_le_of_lt h)
  rw [Nat.mul_succ] at this
  omega

/-- One more argument is copied. -/
theorem Copied.step {i : ℕ} (h : Copied cfg mem sp args i) (hi : i < args.length)
    (hroom : takenAll args ≤ sp) :
    Copied cfg (storeBytes (storeBytes mem (strAt sp args i) (args[i] ++ [0, 0])) (sp + cfg.regSz * i)
      (bytesOfWord (cfg.usrStkVirt (strAt sp args i)) cfg.regSz)) sp args (i + 1) := by
  have hlen : ∀ t : List UInt8, (t ++ [0, 0]).length = t.length + 2 := by simp
  have hend := strAt_add hi hroom
  constructor
  · intro j hj hji
    have hbelow := strAt_add hj hroom
    -- Strings are below the array, each below those before it.
    refine Stored.store ?_ (.inl (by rw [hlen]; omega))
    rcases Nat.lt_succ_iff_lt_or_eq.1 hji with hlt | rfl
    · refine (h.string j hj hlt).store (.inr ?_)
      have := taken_mono args (Nat.succ_le_of_lt hlt)
      rw [Nat.succ_eq_add_one] at this
      rw [hlen, hend, strAt]
      omega
    · exact stored_storeBytes _ _ _
  · intro j hji
    rcases Nat.lt_succ_iff_lt_or_eq.1 hji with hlt | rfl
    · refine ((h.pointer j hlt).store (.inr (by rw [hlen]; omega))).store (.inl ?_)
      rw [length_bytesOfWord]
      exact word_add_le hlt
    · exact stored_storeBytes _ _ _

/-- Memory after a store in a range. -/
theorem sameOutside_store {lo hi : ℕ} {bs : List UInt8} (hlo : lo ≤ a) (hhi : a + bs.length ≤ hi) :
    SameOutside lo hi mem (storeBytes mem a bs) := fun _ hx => storeBytes_of_disjoint (by omega)

theorem SameOutside.trans {lo hi : ℕ} {mem₁ mem₂ : ℕ → UInt8} (h : SameOutside lo hi mem mem₁)
    (h' : SameOutside lo hi mem₁ mem₂) :
    SameOutside lo hi mem mem₂ := fun x hx => (h' x hx).trans (h x hx)

/-- The loop of `copy_argv`, from the argument `i` on: the others are copied
    after the first `i`. -/
theorem copyArgvLoop_ok {i m spc r hi : ℕ} (him : i + m = args.length) (hspc : spc = sp - taken args i - 1)
    (hroom : takenAll args ≤ sp) (hargs : ArgsAt k (k.procs p).upagetable a args)
    (hout : ArgsOutside k (k.procs p).upagetable a args (sp - takenAll args) hi)
    (hhi : sp + cfg.regSz * args.length ≤ hi) (hcopied : Copied cfg k.mem sp args i)
    (h : copyArgvLoop p a sp (List.range' i m) spc k = .ok r k') :
    r = sp - takenAll args - 1 ∧ (∃ mem', k' = { k with mem := mem' }) ∧
      Copied cfg k'.mem sp args args.length ∧
      SameOutside (sp - takenAll args) (sp + cfg.regSz * args.length) k.mem k'.mem := by
  induction m generalizing i spc k with
  | zero =>
    obtain rfl : i = args.length := him
    cases h
    exact ⟨hspc, ⟨_, rfl⟩, hcopied, fun _ _ => rfl⟩
  | succ m ih =>
    have hlt : i < args.length := by omega
    rw [List.range'_succ, copyArgvLoop, get_bind_apply] at h
    obtain ⟨s, k₁, hs, hrest⟩ := bind_eq_ok.1 h
    obtain ⟨rfl, rfl⟩ := (hargs.string i hlt).readString (hargs.nul_free _ (List.getElem_mem hlt)) hs
    -- The string goes right below the one before it.
    have hend := strAt_add hlt hroom
    have hdst : spc - 1 - args[i].length = strAt sp args i := by omega
    rw [hdst, store, modify_bind_apply, store, modify_bind_apply] at hrest
    set mem₂ := storeBytes (storeBytes k₁.mem (strAt sp args i) (args[i] ++ [0, 0])) (sp + cfg.regSz * i)
      (bytesOfWord (cfg.usrStkVirt (strAt sp args i)) cfg.regSz)
    have hstep : Copied cfg mem₂ sp args (i + 1) := hcopied.step hlt hroom
    have hlow : sp - takenAll args ≤ strAt sp args i := by
      have := taken_le_all (Nat.succ_le_of_lt hlt)
      rw [Nat.succ_eq_add_one] at this
      rw [strAt]
      omega
    have hword : sp + cfg.regSz * i + cfg.regSz ≤ sp + cfg.regSz * args.length := word_add_le hlt
    have hstored : SameOutside (sp - takenAll args) (sp + cfg.regSz * args.length) k₁.mem mem₂ := by
      refine (sameOutside_store hlow ?_).trans (sameOutside_store (by omega) ?_)
      · rw [List.length_append, List.length_cons, List.length_singleton]
        omega
      · rwa [length_bytesOfWord]
    have hwide : SameOutside (sp - takenAll args) hi k₁.mem mem₂ :=
      fun x hx => hstored x (hx.imp_right hhi.trans)
    obtain ⟨hr, ⟨mem', rfl⟩, hall, hsame⟩ :=
      ih (k := { k₁ with mem := mem₂ }) (i := i + 1) (by omega)
      (by rw [strAt]) (hargs.kept hwide rfl hout) (hout.kept hwide rfl) hstep hrest
    exact ⟨hr, ⟨mem', rfl⟩, hall, hstored.trans hsame⟩

/-- `copy_argv` of some arguments. The word after the array is left as it was, and
    the null is the word after that. -/
theorem copyArgv_ok {r : ℕ × ℕ} {hi : ℕ} (ha : a ≠ 0) (hne : args ≠ [])
    (hroom : takenAll args ≤ sp)
    (hargs : ArgsAt k (k.procs p).upagetable a args)
    (hout : ArgsOutside k (k.procs p).upagetable a args (sp - takenAll args) hi)
    (hhi : sp + cfg.regSz * args.length + 2 * cfg.regSz ≤ hi)
    (h : copyArgv p (sp + cfg.regSz * args.length + cfg.regSz) args.length a k = .ok r k') :
    r = (stkRound (sp - takenAll args - 1), sp) ∧ k'.procs = k.procs ∧
    Copied cfg k'.mem sp args args.length ∧
      loadWord k'.mem (sp + cfg.regSz * args.length) cfg.regSz =
        loadWord k.mem (sp + cfg.regSz * args.length) cfg.regSz := by
  have hsp : sp + cfg.regSz * args.length + cfg.regSz - cfg.regSz - cfg.regSz * args.length = sp := by omega
  rw [copyArgv, if_neg (by simp [ha, hne]), store, modify_bind_apply, hsp] at h
  obtain ⟨spc, k₁, hloop, h⟩ := bind_eq_ok.1 h
  cases h
  set mem₁ := storeBytes k.mem (sp + cfg.regSz * args.length + cfg.regSz) (bytesOfWord 0 cfg.regSz)
  have hnull : SameOutside (sp - takenAll args) hi k.mem mem₁ := by
    refine sameOutside_store (by omega) ?_
    rw [length_bytesOfWord]
    omega
  rw [List.range_eq_range'] at hloop
  obtain ⟨rfl, ⟨mem', rfl⟩, hcopied, hsame⟩ :=
    copyArgvLoop_ok (k := { k with mem := mem₁ }) (i := 0) (by omega)
    (by simp [taken]) hroom (hargs.kept hnull rfl hout) (hout.kept hnull rfl) (by omega)
    ⟨fun _ _ h => absurd h (Nat.not_lt_zero _), fun _ h => absurd h (Nat.not_lt_zero _)⟩ hloop
  refine ⟨rfl, rfl, hcopied, loadWord_congr fun x hx hlt => ?_⟩
  rw [hsame x (.inr hx)]
  exact storeBytes_of_disjoint (.inl hlt)

/-! ## The call -/

/-- What page tables and the page allocator leave alone. -/
def memProcs (k : Kernel cfg) : (ℕ → UInt8) × (Slot cfg → Proc cfg) := (k.mem, k.procs)

theorem keeps_withLock {α : Type} {l : Lock cfg} {c : KM cfg α} (h : Keeps memProcs c) :
    Keeps memProcs (withLock l c) := by
  refine Keeps.bind (Keeps.get.bind fun k => ?_) fun _ => h.bind fun _ => ?_
  · split
    · exact .throw
    · exact .modify fun _ => rfl
  · exact Keeps.bind (.modify fun _ => rfl) fun _ => .pure

theorem keeps_kalloc {pid : ℕ} : Keeps memProcs (kalloc pid : KM cfg _) := by
  refine keeps_withLock (Keeps.get.bind fun k => ?_)
  cases freePage k with
  | none => exact .pure
  | some i => exact Keeps.bind (.modify fun _ => rfl) fun _ => .pure

theorem keeps_mapPageLevel {pa va perm pid : ℕ} (level pt : ℕ) :
    Keeps memProcs (mapPageLevel pa va perm pid level pt : KM cfg _) := by
  induction level generalizing pt with
  | zero => exact .modify fun _ => rfl
  | succ level ih =>
    refine Keeps.get.bind fun k => ?_
    dsimp only
    split
    · refine keeps_kalloc.bind fun next => ?_
      cases next with
      | none => exact .throw
      | some next =>
        exact Keeps.bind (.modify fun _ => rfl) fun _ => Keeps.bind (.modify fun _ => rfl) fun _ => ih next
    · exact ih _

theorem keeps_mapStack {pt base pid : ℕ} : Keeps memProcs (mapStack pt base pid : KM cfg _) := by
  have hmap : ∀ pa va perm : ℕ, Keeps memProcs (mapPageSv39 pt pa va perm pid : KM cfg _) := by
    intro pa va perm
    rw [mapPageSv39]
    split
    · exact keeps_mapPageLevel _ _
    · exact .pure
  exact (hmap _ _ _).bind fun _ => hmap _ _ _

theorem keeps_releasePage {ptr : ℕ} : Keeps memProcs (releasePage ptr : KM cfg _) :=
  keeps_withLock (.modify fun _ => rfl)

/-- `proc_execv` finds the program, and a page for its stack. -/
structure FindsProgram (p : Slot cfg) (k : Kernel cfg) (filename : ℕ) : Prop where
  name : va2pa k (k.procs p).upagetable filename ≠ 0
  program : findUserProgram
    ((loadBytes k.mem (va2pa k (k.procs p).upagetable filename) 17).takeWhile (· ≠ 0)) ≠ none
  page : freePage k ≠ none

/-- How `proc_execv` returns. The error paths keep the lock. -/
theorem procExecv_returns {filename argv : ℕ} {n : ℤ} (h : procExecv p filename argv k = .ok n k') :
    k.held (.proc p) = false ∧
      ((¬FindsProgram p k filename ∧ n = -1 ∧ k'.held = Function.update k.held (.proc p) true) ∨
        FindsProgram p k filename ∧ ∃ j prog, freePage k = some j ∧
        execProgram p prog (cfg.pagePtr j) argv
          ((k.setHeld (.proc p) true).takePage j (k.procs p).pid) = .ok n k') := by
  rw [procExecv] at h
  cases hheld : k.held (.proc p) with
  | true =>
    rw [bind_error (acquire_deadlock hheld)] at h
    cases h
  | false =>
    refine ⟨rfl, ?_⟩
    rw [bind_ok (acquire_ok hheld)] at h
    -- From here on `proc_execv` reads the kernel with its own lock held.
    generalize hk₀ : k.setHeld (.proc p) true = k₀ at h
    rw [get_bind_apply] at h
    by_cases hname : va2pa k₀ (k₀.procs p).upagetable filename = 0
    · rw [if_pos hname] at h
      cases h
      subst hk₀
      exact .inl ⟨fun hf => hf.name hname, rfl, rfl⟩
    rw [if_neg hname] at h
    cases hprog : findUserProgram
        ((loadBytes k₀.mem (va2pa k₀ (k₀.procs p).upagetable filename) 17).takeWhile (· ≠ 0)) with
    | none =>
      rw [hprog] at h
      cases h
      subst hk₀
      exact .inl ⟨fun hf => hf.program hprog, rfl, rfl⟩
    | some prog =>
      rw [hprog] at h
      -- The last error path: there is a program, but no page for its stack.
      obtain ⟨r, k₁, hkalloc, hrest⟩ := bind_eq_ok.1 h
      rcases kalloc_ok hkalloc with ⟨rfl, hnone, rfl⟩ | ⟨j, rfl, hj, rfl⟩
      · cases hrest
        subst hk₀
        exact .inl ⟨fun hf => hf.page hnone, rfl, rfl⟩
      · subst hk₀
        refine .inr ⟨⟨hname, ?_, ?_⟩, j, prog, hj, hrest⟩
        · exact fun hnone => by cases hprog.symm.trans hnone
        · exact fun hnone => by cases hj.symm.trans hnone

/-- The kernel as `copy_argv` finds it. -/
def Kernel.startProgram (k : Kernel cfg) (p : Slot cfg) (prog : ℕ × List UInt8) (base : ℕ) : Kernel cfg :=
  k.setProc p { k.procs p with
    trap := { (k.procs p).trap with pc := cfg.usrVirt (cfg.entry prog.1) }
    name := some prog.2
    perrno := setPerrno cfg base }

/-- The new program starts with the stack page at `base`, after `copy_argv`. -/
structure Starts (p : Slot cfg) (base argc : ℕ) (r : ℕ × ℕ) (k k' : Kernel cfg) : Prop where
  mem : k'.mem = k.mem
  stackPage : (k'.procs p).stackPage = base
  perrno : (k'.procs p).perrno = (k.procs p).perrno
  released : k'.held (.proc p) = false
  trapFrame : k'.trapFrame = execTrap cfg (k.procs p).trap r.1 argc r.2

theorem execProgram_ok {prog : ℕ × List UInt8} {base argv : ℕ} {n : ℤ}
    (h : execProgram p prog base argv k = .ok n k') :
    let k₁ := k.startProgram p prog base
    let a := va2pa k₁ (k₁.procs p).upagetable argv
    ∃ (argc : ℕ) (r : ℕ × ℕ) (k₂ : Kernel cfg),
      (if a = 0 then some 0 else lenArgv k₁ a (cfg.memEnd - a)) = some argc ∧
      copyArgv p (base + cfg.userStackSize - 2 * cfg.regSz) argc a k₁ = .ok r k₂ ∧
      Starts p base argc r k₂ k' ∧ n = argc := by
  rw [execProgram] at h
  obtain ⟨_, k₁, hname, h⟩ := bind_eq_ok.1 h
  obtain rfl : k₁ = k.startProgram p prog base := by
    cases hname
    rfl
  intro k₁ a
  rw [get_bind_apply] at h
  cases hargc : (if a = 0 then some 0 else lenArgv k₁ a (cfg.memEnd - a)) with
  | none =>
    rw [hargc] at h
    cases h
  | some argc =>
    rw [hargc] at h
    obtain ⟨r, k₂, hcopy, h⟩ := bind_eq_ok.1 h
    obtain ⟨_, k₃, hmap, h⟩ := bind_eq_ok.1 h
    obtain ⟨_, k₄, hrelease, h⟩ := bind_eq_ok.1 h
    -- What comes after `copy_argv` writes to page tables and locks only.
    have hkept : memProcs k₄ = memProcs k₂ :=
      (keeps_releasePage.of_ok hrelease).trans (keeps_mapStack.of_ok hmap)
    have hmem : k₄.mem = k₂.mem := congrArg Prod.fst hkept
    have hprocs : k₄.procs = k₂.procs := congrArg Prod.snd hkept
    rw [modifyProc, modify_bind_apply, modify_bind_apply] at h
    cases hfile : (k₁.procs p).procfsNameFile with
    | none =>
      rw [hfile] at h
      cases h
    | some j =>
      rw [hfile] at h
      cases h
      have hself : ∀ y : Proc cfg, (k₄.setProc p y).procs p = y := fun y => Function.update_self ..
      refine ⟨argc, r, k₂, rfl, hcopy, ⟨hmem, ?_, ?_, Function.update_self .., ?_⟩, rfl⟩
      · exact congrArg (fun x : Proc cfg => x.stackPage) (hself _)
      · rw [← hprocs]
        exact (congrArg (fun x : Proc cfg => x.perrno) (hself _)).trans rfl
      · rw [← hprocs]
        exact (congrArg (fun x : Proc cfg => x.trap) (hself _)).trans rfl

/-! ## The stack of the new program -/

/-- What the headers say of the sizes of a stack. -/
structure StackSizes (cfg : Config) : Prop where
  xlen : cfg.xlen = 32 ∨ cfg.xlen = 64
  xlen_of_mmu : cfg.mmu = true → cfg.xlen = 64
  pageSize : cfg.pageSize = 512 ∨ cfg.pageSize = 4096
  userStackSize : cfg.userStackSize = 512 ∨ cfg.userStackSize = cfg.pageSize

/-- The `n` bytes at the address `va` of the program are those at `pa`, in the
    stack page at `base`. -/
structure MapsStack (cfg : Config) (base va pa n : ℕ) : Prop where
  low : base ≤ pa
  high : pa + n ≤ base + cfg.userStackSize
  addr : va = if cfg.mmu then topmostVirtPage + (pa - base) else pa

/-- The program of `p` starts with its arguments: the array is at `arr`, the
    string `i` at `str i`. -/
structure Delivers (p : Slot cfg) (k : Kernel cfg) (args : List (List UInt8)) (arr : ℕ) (str : ℕ → ℕ) :
    Prop where
  argc : k.trapFrame.regs TrapFrame.a0 = args.length
  array : MapsStack cfg (k.procs p).stackPage (k.trapFrame.regs TrapFrame.a1) arr
    (cfg.regSz * args.length + cfg.regSz)
  pointer : ∀ i (h : i < args.length), MapsStack cfg (k.procs p).stackPage
    (loadWord k.mem (arr + cfg.regSz * i) cfg.regSz) (str i) (args[i].length + 1)
  null : loadWord k.mem (arr + cfg.regSz * args.length) cfg.regSz = 0
  string : ∀ i (h : i < args.length), Stored k.mem (str i) (args[i] ++ [0])
  apart : ∀ i (hi : i < args.length) j (hj : j < args.length), i ≠ j →
    Outside (str i) (str i + (args[i].length + 1)) (str j) (args[j].length + 1)
  array_apart : ∀ i (h : i < args.length),
    Outside arr (arr + (cfg.regSz * args.length + cfg.regSz)) (str i) (args[i].length + 1)
  errno_apart : ∀ i (h : i < args.length),
    Outside (k.procs p).perrno ((k.procs p).perrno + cfg.regSz) (str i) (args[i].length + 1)
  aligned : k.trapFrame.regs TrapFrame.sp % 16 = 0
  sp_le_array : k.trapFrame.regs TrapFrame.sp ≤ k.trapFrame.regs TrapFrame.a1
  sp_le_string : ∀ i < args.length,
    k.trapFrame.regs TrapFrame.sp ≤ loadWord k.mem (arr + cfg.regSz * i) cfg.regSz
  sp_le_errno : ∃ va, MapsStack cfg (k.procs p).stackPage va (k.procs p).perrno cfg.regSz ∧
    k.trapFrame.regs TrapFrame.sp ≤ va

/-- With an MMU, the stack page is the topmost one. -/
theorem usrStkVirt_of_mmu (hmmu : cfg.mmu = true) (pa : ℕ) :
    cfg.usrStkVirt pa = topmostVirtPage + pa % 4096 := by
  rw [Config.usrStkVirt, if_pos hmmu]
  have htop : topmostVirtPage = 2 ^ 12 * (2 ^ 9 - 1) + 0 := rfl
  have hsum : topmostVirtPage + pa % 4096 = 2 ^ 12 * (2 ^ 9 - 1) + pa % 2 ^ 12 := rfl
  refine Nat.eq_of_testBit_eq fun i => ?_
  rw [hsum, Nat.testBit_mod_two_pow, Nat.testBit_or, htop, Nat.testBit_two_pow_mul_add _ (by decide),
    Nat.testBit_two_pow_mul_add _ (Nat.mod_lt _ (by decide)), Nat.testBit_two_pow_sub_one,
    Nat.testBit_mod_two_pow]
  by_cases h : i < 12
  · simp [h, show i < 21 by omega]
  · by_cases h' : i < 21
    · simp [h, h', show i - 12 < 9 by omega]
    · simp [h, h', show ¬i - 12 < 9 by omega]

theorem usrStkVirt_of_noMmu (hmmu : cfg.mmu = false) (pa : ℕ) : cfg.usrStkVirt pa = pa := by
  rw [Config.usrStkVirt, hmmu]
  rfl

/-- What is known of the numbers of a stack page. -/
structure StackBase (cfg : Config) (base : ℕ) : Prop where
  regSz : cfg.regSz = 4 ∨ cfg.regSz = 8
  size : 512 ≤ cfg.userStackSize ∧ cfg.userStackSize ≤ 4096
  size_le : cfg.userStackSize ≤ base
  top_lt : base + cfg.userStackSize < 256 ^ cfg.regSz
  aligned : cfg.mmu = true → 4096 ∣ base ∧ cfg.regSz = 8

theorem stackBase_pagePtr (hplaced : Placed cfg) (hup : RoundsUp cfg) (hsizes : StackSizes cfg)
    (j : Fin cfg.numPages) : StackBase cfg (cfg.pagePtr j) := by
  obtain ⟨hdvd, hpos, htop⟩ := pagePtr_bounds hplaced hup j
  have hle : cfg.pageSize ≤ cfg.pagePtr j := Nat.le_of_dvd (Nat.zero_lt_of_lt hpos) hdvd
  have hsize : cfg.userStackSize ≤ cfg.pageSize := by
    rcases hsizes.userStackSize, hsizes.pageSize with ⟨h | h, h' | h'⟩ <;> omega
  have hpow : 2 ^ cfg.xlen = 256 ^ cfg.regSz := by
    rw [Config.regSz]
    rcases hsizes.xlen with h | h <;> simp [h]
  have hend := hplaced.memEnd_lt
  refine ⟨?_, ?_, hsize.trans hle, by omega, fun hmmu => ⟨cfg.pageSize_of_mmu hmmu ▸ hdvd, ?_⟩⟩
  · rw [Config.regSz]
    exact hsizes.xlen.imp (fun h => by rw [h]) fun h => by rw [h]
  · rcases hsizes.userStackSize, hsizes.pageSize with ⟨h | h, h' | h'⟩ <;> omega
  · rw [Config.regSz, hsizes.xlen_of_mmu hmmu]

section StackBase

variable {base x y : ℕ} (hbase : StackBase cfg base)
include hbase

/-- Addresses in the page stay in order. -/
theorem StackBase.usrStkVirt_le (hxy : x ≤ y) (hx : cfg.mmu = true → base ≤ x)
    (hy : y < base + cfg.userStackSize) :
    cfg.usrStkVirt x ≤ cfg.usrStkVirt y := by
  cases hmmu : cfg.mmu with
  | false => rwa [usrStkVirt_of_noMmu hmmu, usrStkVirt_of_noMmu hmmu]
  | true =>
    obtain ⟨⟨q, hq⟩, -⟩ := hbase.aligned hmmu
    have hsize := hbase.size
    have := hx hmmu
    rw [usrStkVirt_of_mmu hmmu, usrStkVirt_of_mmu hmmu]
    omega

theorem StackBase.mapsStack (hx : base ≤ x) (hn : 0 < n) (htop : x + n ≤ base + cfg.userStackSize) :
    MapsStack cfg base (cfg.usrStkVirt x) x n := by
  refine ⟨hx, htop, ?_⟩
  cases hmmu : cfg.mmu with
  | false =>
    rw [usrStkVirt_of_noMmu hmmu]
    rfl
  | true =>
    obtain ⟨⟨q, hq⟩, -⟩ := hbase.aligned hmmu
    have hsize := hbase.size
    rw [usrStkVirt_of_mmu hmmu, if_pos rfl]
    omega

/-- A pointer fits into a word. -/
theorem StackBase.usrStkVirt_lt (hx : x < base + cfg.userStackSize) : cfg.usrStkVirt x < 256 ^ cfg.regSz := by
  cases hmmu : cfg.mmu with
  | false =>
    rw [usrStkVirt_of_noMmu hmmu]
    exact hx.trans hbase.top_lt
  | true =>
    rw [usrStkVirt_of_mmu hmmu, (hbase.aligned hmmu).2]
    have hlt := Nat.mod_lt x (show 0 < 4096 by decide)
    have hpow : topmostVirtPage + 4096 < 256 ^ 8 := by decide
    omega

end StackBase

/-- The program of `p` starts with what `copy_argv` makes of some arguments, in the
    page at `base`. -/
structure Laid (p : Slot cfg) (k : Kernel cfg) (args : List (List UInt8)) (base arr : ℕ) : Prop where
  argc : k.trapFrame.regs TrapFrame.a0 = args.length
  array : k.trapFrame.regs TrapFrame.a1 = cfg.usrStkVirt arr
  stack : k.trapFrame.regs TrapFrame.sp = cfg.usrStkVirt (stkRound (arr - takenAll args - 1))
  stackPage : (k.procs p).stackPage = base
  perrno : (k.procs p).perrno = base + cfg.userStackSize - cfg.regSz
  copied : Copied cfg k.mem arr args args.length

/-- The bytes that the arguments use of a stack page, with the word for `errno`. -/
def room (cfg : Config) (args : List (List UInt8)) : ℕ :=
  takenAll args + (cfg.regSz * args.length + 3 * cfg.regSz)

section Laid

variable {base arr : ℕ} (hbase : StackBase cfg base) (h : Laid p k args base arr)
  (harr : arr + (cfg.regSz * args.length + 3 * cfg.regSz) = base + cfg.userStackSize)
include hbase h harr

theorem Laid.loadWord_pointer {i : ℕ} (hi : i < args.length) :
    loadWord k.mem (arr + cfg.regSz * i) cfg.regSz = cfg.usrStkVirt (strAt arr args i) := by
  rw [(h.copied.pointer i hi).loadWord, Nat.mod_eq_of_lt (hbase.usrStkVirt_lt ?_)]
  have hw := hbase.regSz
  rw [strAt]
  omega

/-- The arguments are there if the strings are in the page and, where the stack
    pointer would wrap around below it, a byte is left. -/
theorem Laid.delivers (hroom : room cfg args + (if cfg.mmu then 1 else 0) ≤ cfg.userStackSize)
    (hnull : loadWord k.mem (arr + cfg.regSz * args.length) cfg.regSz = 0) :
    Delivers p k args arr (strAt arr args) := by
  have hw := hbase.regSz
  rw [room] at hroom
  have hfit : base + takenAll args ≤ arr := by omega
  -- The strings lie between the start of the page and the array.
  have hstr : ∀ i (hi : i < args.length),
      base ≤ strAt arr args i ∧ strAt arr args i + (args[i].length + 2) ≤ arr - taken args i := by
    intro i hi
    have hle : taken args (i + 1) ≤ takenAll args := taken_le_all hi
    refine ⟨by rw [strAt]; omega, (strAt_add hi (by omega)).le⟩
  have hsp : cfg.mmu = true → base ≤ stkRound (arr - takenAll args - 1) := by
    intro hmmu
    obtain ⟨⟨q, hq⟩, -⟩ := hbase.aligned hmmu
    rw [hmmu, if_pos rfl] at hroom
    rw [stkRound]
    omega
  have hround : stkRound (arr - takenAll args - 1) ≤ arr - takenAll args - 1 := Nat.sub_le _ _
  have hword : ∀ i (hi : i < args.length), arr + cfg.regSz * i + cfg.regSz ≤ arr +
      cfg.regSz * args.length :=
    fun i hi => word_add_le hi
  refine ⟨h.argc, ?_, fun i hi => ?_, hnull, fun i hi => ?_, ?_, fun i hi => ?_,
    fun i hi => ?_, ?_, ?_, ?_, ?_⟩
  · rw [h.stackPage, h.array]
    exact hbase.mapsStack (by omega) (by omega) (by omega)
  · have := hstr i hi
    rw [h.stackPage, h.loadWord_pointer hbase harr hi]
    exact hbase.mapsStack this.1 (by omega) (by omega)
  · have hcopied := h.copied.string i hi hi
    rw [show args[i] ++ [0, 0] = (args[i] ++ [0]) ++ [0] by simp] at hcopied
    exact hcopied.left
  · -- Of two strings, the one of the later argument is below.
    have hbelow : ∀ i (hi : i < args.length) j (hj : j < args.length), i < j →
        strAt arr args j + (args[j].length + 2) ≤ strAt arr args i := by
      intro i hi j hj hij
      have hmono := taken_mono args (Nat.succ_le_of_lt hij)
      have := (hstr j hj).2
      rw [Nat.succ_eq_add_one] at hmono
      rw [strAt] at this ⊢
      rw [strAt]
      omega
    intro i hi j hj hne
    rcases Nat.lt_or_gt_of_ne hne with hlt | hlt
    · have := hbelow i hi j hj hlt
      exact .inl (by omega)
    · have := hbelow j hj i hi hlt
      exact .inr (by omega)
  · have := hstr i hi
    exact .inl (by omega)
  · have := hstr i hi
    rw [h.perrno]
    exact .inl (by omega)
  · rw [h.stack]
    cases hmmu : cfg.mmu with
    | false =>
      rw [usrStkVirt_of_noMmu hmmu, stkRound]
      omega
    | true =>
      rw [usrStkVirt_of_mmu hmmu, stkRound, show topmostVirtPage = 16 * 0x1ff00 from rfl]
      omega
  · rw [h.stack, h.array]
    exact hbase.usrStkVirt_le (by omega) hsp (by omega)
  · intro i hi
    have := hstr i hi
    have hle : taken args (i + 1) ≤ takenAll args := taken_le_all hi
    rw [h.stack, h.loadWord_pointer hbase harr hi]
    refine hbase.usrStkVirt_le ?_ hsp (by omega)
    rw [strAt]
    omega
  · rw [h.stackPage, h.perrno, h.stack]
    refine ⟨_, hbase.mapsStack (by omega) (by omega) (by omega), hbase.usrStkVirt_le ?_ hsp (by omega)⟩
    omega

/-- The bytes that the arguments need of the new page: the strings with their
    zeros, the array with its null, and the word for `errno`. -/
def needed (cfg : Config) (args : List (List UInt8)) : ℕ :=
  (args.map fun s => s.length + 1).sum + (cfg.regSz * args.length + 2 * cfg.regSz)

omit hbase h harr in
theorem takenAll_eq (args : List (List UInt8)) :
    takenAll args = (args.map fun s => s.length + 1).sum + args.length := by
  rw [takenAll, taken, List.take_length]
  induction args with
  | nil => rfl
  | cons s args ih =>
    rw [List.map_cons, List.sum_cons, ih, List.map_cons, List.sum_cons, List.length_cons]
    omega

omit hbase h harr in
theorem length_le_sum (args : List (List UInt8)) : args.length ≤ (args.map fun s => s.length + 1).sum := by
  induction args with
  | nil => rfl
  | cons s args ih =>
    rw [List.map_cons, List.sum_cons, List.length_cons]
    omega

/-- If the arguments are there, they are where `copy_argv` has put them. -/
theorem Laid.of_delivers (hne : args ≠ []) (hfit : needed cfg args ≤ cfg.userStackSize)
    {arr' : ℕ} {str : ℕ → ℕ}
    (hd : Delivers p k args arr' str) :
    arr' = arr ∧ room cfg args + (if cfg.mmu then 1 else 0) ≤ cfg.userStackSize := by
  have hw := hbase.regSz
  have hsize := hbase.size
  have hsizele := hbase.size_le
  have hpos : 0 < args.length := List.length_pos_iff.2 hne
  have htaken := takenAll_eq args
  have hlen := length_le_sum args
  have hmul : 4 * args.length ≤ cfg.regSz * args.length := Nat.mul_le_mul_right _ (by omega)
  rw [needed] at hfit
  rw [room]
  have harray := hd.array
  rw [h.stackPage, h.array] at harray
  obtain ⟨hlow, hhigh, haddr⟩ := harray
  cases hmmu : cfg.mmu with
  | false =>
    rw [hmmu, usrStkVirt_of_noMmu hmmu, if_neg (by simp)] at haddr
    obtain rfl : arr = arr' := haddr
    refine ⟨rfl, ?_⟩
    -- The last string is the lowest.
    have hlast : args.length - 1 < args.length := by omega
    have hstr := hd.pointer _ hlast
    rw [h.stackPage, h.loadWord_pointer hbase harr hlast, usrStkVirt_of_noMmu hmmu, strAt,
      Nat.sub_add_cancel hpos] at hstr
    obtain ⟨hslow, -, hsaddr⟩ := hstr
    rw [hmmu, if_neg (by simp)] at hsaddr
    rw [if_neg (by simp)]
    have hall : taken args args.length = takenAll args := rfl
    omega
  | true =>
    obtain ⟨⟨q, hq⟩, hreg⟩ := hbase.aligned hmmu
    rw [hmmu, usrStkVirt_of_mmu hmmu, if_pos rfl] at haddr
    rw [hreg] at harr hfit hhigh ⊢
    refine ⟨by omega, ?_⟩
    -- Otherwise the stack pointer wraps around to the end of the page.
    have hsp := hd.sp_le_array
    rw [h.stack, h.array, usrStkVirt_of_mmu hmmu, usrStkVirt_of_mmu hmmu] at hsp
    rw [if_pos rfl]
    by_contra hover
    have hround : stkRound (arr - takenAll args - 1) ≤ arr - takenAll args - 1 := Nat.sub_le _ _
    have hround' : arr - takenAll args - 1 < stkRound (arr - takenAll args - 1) + 16 := by
      rw [stkRound]
      omega
    have hq' : stkRound (arr - takenAll args - 1) / 4096 = q - 1 := by omega
    have harrq : arr / 4096 = q := by omega
    omega

end Laid

/-! ## Delivery -/

theorem execTrap_regs (cfg : Config) (t : TrapFrame) (sp argc argv : ℕ) :
    (execTrap cfg t sp argc argv).regs TrapFrame.a0 = argc ∧
      (execTrap cfg t sp argc argv).regs TrapFrame.a1 = cfg.usrStkVirt argv ∧
      (execTrap cfg t sp argc argv).regs TrapFrame.sp = cfg.usrStkVirt sp := by
  exact ⟨rfl, rfl, rfl⟩

/-- Without arguments, `copy_argv` leaves the program no array. -/
theorem not_delivers_nil {base : ℕ} {k₂ : Kernel cfg} (hbase : StackBase cfg base)
    (h : Starts p base 0 (base + cfg.userStackSize - 2 * cfg.regSz, 0) k₂ k')
    {arr : ℕ} {str : ℕ → ℕ} :
    ¬Delivers p k' [] arr str := by
  intro hd
  obtain ⟨-, ha1, hsp⟩ :=
    execTrap_regs cfg (k₂.procs p).trap (base + cfg.userStackSize - 2 * cfg.regSz) 0 0
  rw [← h.trapFrame] at ha1 hsp
  have harray := hd.array.low
  have haddr := hd.array.addr
  have hle := hd.sp_le_array
  have hsize := hbase.size
  have hw := hbase.regSz
  have hsizele := hbase.size_le
  rw [h.stackPage] at harray haddr
  rw [ha1] at haddr hle
  rw [hsp] at hle
  cases hmmu : cfg.mmu with
  | false =>
    rw [hmmu, usrStkVirt_of_noMmu hmmu, if_neg (by simp)] at haddr
    omega
  | true =>
    obtain ⟨⟨q, hq⟩, -⟩ := hbase.aligned hmmu
    rw [usrStkVirt_of_mmu hmmu, usrStkVirt_of_mmu hmmu] at hle
    omega

/-- The kernel has the memory, the page tables and the user page table of `p` of
    another one. -/
structure SameView (p : Slot cfg) (k k' : Kernel cfg) : Prop where
  mem : k'.mem = k.mem
  pte : k'.pte = k.pte
  upagetable : (k'.procs p).upagetable = (k.procs p).upagetable

theorem SameView.va2pa_eq (h : SameView p k k') (va : ℕ) :
    va2pa k' (k'.procs p).upagetable va = va2pa k (k.procs p).upagetable va := by
  rw [va2pa, va2pa, h.pte, h.upagetable]

theorem SameView.argsAt (h : SameView p k k') (hargs : ArgsAt k (k.procs p).upagetable a args) :
    ArgsAt k' (k'.procs p).upagetable a args := by
  constructor
  · rw [h.mem]
    exact hargs.pointer
  · rw [h.mem]
    exact hargs.null
  · intro i hi
    rw [h.va2pa_eq, h.mem]
    exact hargs.string i hi
  · exact hargs.nul_free

theorem SameView.argsOutside {lo hi : ℕ} (h : SameView p k k')
    (hout : ArgsOutside k (k.procs p).upagetable a args lo hi) :
    ArgsOutside k' (k'.procs p).upagetable a args lo hi := by
  refine ⟨hout.vector, fun i hi => ?_⟩
  rw [h.va2pa_eq, h.mem]
  exact hout.string i hi

/-- The vector that `p` passes has arguments that fit into a page. The next page is
    `j`, and the vector is not where it is copied to. -/
structure PassesArgs (p : Slot cfg) (k : Kernel cfg) (argv : ℕ) (args : List (List UInt8))
    (j : Fin cfg.numPages) : Prop where
  page : freePage k = some j
  ne_zero : va2pa k (k.procs p).upagetable argv ≠ 0
  vector : ArgsAt k (k.procs p).upagetable (va2pa k (k.procs p).upagetable argv) args
  fit : needed cfg args ≤ cfg.userStackSize
  outside : ArgsOutside k (k.procs p).upagetable (va2pa k (k.procs p).upagetable argv) args
    (cfg.pagePtr j + cfg.userStackSize - room cfg args) (cfg.pagePtr j + cfg.userStackSize)

instance (p : Slot cfg) (k : Kernel cfg) (argv : ℕ) (args : List (List UInt8)) (j : Fin cfg.numPages) :
    Decidable (PassesArgs p k argv args j) :=
  decidable_of_iff (_ ∧ _ ∧ _ ∧ _ ∧ _)
    ⟨fun h => ⟨h.1, h.2.1, h.2.2.1, h.2.2.2.1, h.2.2.2.2⟩, fun h => ⟨h.1, h.2, h.3, h.4, h.5⟩⟩

theorem SameView.lenArgv (h : SameView p k k') (a n : ℕ) :
    HobbyOs.lenArgv k' a n = HobbyOs.lenArgv k a n := by
  induction n generalizing a with
  | zero => rfl
  | succ n ih => rw [HobbyOs.lenArgv, HobbyOs.lenArgv, h.mem, ih]

/-- A `proc_execv` that finds the program runs `copy_argv` with the vector that it is
    passed. -/
theorem procExecv_runs {filename argv : ℕ} {n : ℤ} {j : Fin cfg.numPages}
    (h : procExecv p filename argv k = .ok n k')
    (hfinds : FindsProgram p k filename) (hj : freePage k = some j) :
    ∃ (argc : ℕ) (r : ℕ × ℕ) (k₁ k₂ : Kernel cfg), SameView p k k₁ ∧
      (k₁.procs p).perrno = setPerrno cfg (cfg.pagePtr j) ∧
      (if va2pa k (k.procs p).upagetable argv = 0 then some 0
        else lenArgv k (va2pa k (k.procs p).upagetable argv)
        (cfg.memEnd - va2pa k (k.procs p).upagetable argv)) =
          some argc ∧
      copyArgv p (cfg.pagePtr j + cfg.userStackSize - 2 * cfg.regSz) argc
        (va2pa k (k.procs p).upagetable argv) k₁ = .ok r k₂ ∧
      Starts p (cfg.pagePtr j) argc r k₂ k' ∧ n = argc := by
  obtain ⟨-, ⟨hfail, -⟩ | ⟨-, j', prog, hj', hexec⟩⟩ := procExecv_returns h
  · exact absurd hfinds hfail
  obtain rfl : j' = j := Option.some.inj (hj'.symm.trans hj)
  obtain ⟨argc, r, k₂, hlen, hcopy, hstarts, hn⟩ := execProgram_ok hexec
  set k₀ := (k.setHeld (.proc p) true).takePage j' (k.procs p).pid
  have hself : ∀ y : Proc cfg, (k₀.setProc p y).procs p = y := fun y => Function.update_self ..
  have hview : SameView p k (k₀.startProgram p prog (cfg.pagePtr j')) :=
    ⟨rfl, rfl, (congrArg (fun x : Proc cfg => x.upagetable) (hself _)).trans rfl⟩
  have hperrno : ((k₀.startProgram p prog (cfg.pagePtr j')).procs p).perrno =
      setPerrno cfg (cfg.pagePtr j') :=
    (congrArg (fun x : Proc cfg => x.perrno) (hself _)).trans rfl
  rw [hview.va2pa_eq, hview.lenArgv] at hlen
  rw [hview.va2pa_eq] at hcopy
  exact ⟨argc, r, _, k₂, hview, hperrno, hlen, hcopy, hstarts, hn⟩

/-- A `proc_execv` that succeeds runs `copy_argv` with its vector. -/
theorem procExecv_copies {filename argv : ℕ} {n : ℤ} {j : Fin cfg.numPages}
    (h : procExecv p filename argv k = .ok n k') (hn : n ≠ -1) (hargs : PassesArgs p k argv args j) :
    ∃ (r : ℕ × ℕ) (k₁ k₂ : Kernel cfg), SameView p k k₁ ∧ (k₁.procs p).perrno =
      setPerrno cfg (cfg.pagePtr j) ∧
      copyArgv p (cfg.pagePtr j + cfg.userStackSize - 2 * cfg.regSz) args.length
        (va2pa k (k.procs p).upagetable argv) k₁ = .ok r k₂ ∧
      Starts p (cfg.pagePtr j) args.length r k₂ k' := by
  have hfinds : FindsProgram p k filename := by
    obtain ⟨-, ⟨-, hfail, -⟩ | ⟨hfinds, -⟩⟩ := procExecv_returns h
    · exact absurd hfail hn
    · exact hfinds
  obtain ⟨argc, r, k₁, k₂, hview, hperrno, hlen, hcopy, hstarts, -⟩ :=
    procExecv_runs h hfinds hargs.page
  rw [if_neg hargs.ne_zero] at hlen
  obtain rfl : argc = args.length := hargs.vector.lenArgv hlen
  exact ⟨r, k₁, k₂, hview, hperrno, hcopy, hstarts⟩

section

variable (hplaced : Placed cfg) (hup : RoundsUp cfg) (hsizes : StackSizes cfg)
include hplaced hup hsizes

/-- The new program finds its arguments if and only if there are some, what is
    copied fits, with a byte left where the stack pointer wraps around, and the
    word after the array happens to be zero in the new page. -/
theorem execv_delivers_iff {filename argv : ℕ} {n : ℤ} {j : Fin cfg.numPages}
    (h : procExecv p filename argv k = .ok n k') (hn : n ≠ -1) (hargs : PassesArgs p k argv args j) :
    (∃ arr str, Delivers p k' args arr str) ↔
      args ≠ [] ∧ room cfg args + (if cfg.mmu then 1 else 0) ≤ cfg.userStackSize ∧
        loadWord k.mem (cfg.pagePtr j + cfg.userStackSize - 3 * cfg.regSz) cfg.regSz = 0 := by
  have hbase := stackBase_pagePtr hplaced hup hsizes j
  obtain ⟨r, k₁, k₂, hview, hperrno, hcopy, hstarts⟩ := procExecv_copies h hn hargs
  set base := cfg.pagePtr j
  by_cases hne : args = []
  · subst hne
    refine iff_of_false ?_ (by simp)
    rw [copyArgv, if_pos (.inl rfl)] at hcopy
    cases hcopy
    exact fun ⟨_, _, hd⟩ => not_delivers_nil hbase hstarts hd
  -- The array ends three words below the end of the page.
  have hw := hbase.regSz
  have hsize := hbase.size
  have hsizele := hbase.size_le
  have htaken := takenAll_eq args
  have hlen := length_le_sum args
  have hmul : 4 * args.length ≤ cfg.regSz * args.length := Nat.mul_le_mul_right _ (by omega)
  have hfit := hargs.fit
  have hout := hargs.outside
  rw [needed] at hfit
  obtain ⟨arr, harr⟩ : ∃ arr, arr + (cfg.regSz * args.length + 3 * cfg.regSz) =
      base + cfg.userStackSize :=
    ⟨base + cfg.userStackSize - (cfg.regSz * args.length + 3 * cfg.regSz), by omega⟩
  have hsp : base + cfg.userStackSize - 2 * cfg.regSz = arr + cfg.regSz * args.length + cfg.regSz := by omega
  have hgap : base + cfg.userStackSize - 3 * cfg.regSz = arr + cfg.regSz * args.length := by omega
  have hlow : base + cfg.userStackSize - room cfg args = arr - takenAll args := by
    rw [room]
    omega
  rw [hlow] at hout
  rw [hsp] at hcopy
  rw [hgap]
  obtain ⟨rfl, hprocs, hcopied, hkept⟩ :=
    copyArgv_ok hargs.ne_zero hne (by omega) (hview.argsAt hargs.vector)
    (hview.argsOutside hout) (by omega) hcopy
  rw [hview.mem] at hkept
  have hregs := execTrap_regs cfg (k₂.procs p).trap (stkRound (arr - takenAll args - 1)) args.length arr
  rw [← hstarts.trapFrame] at hregs
  have hlaid : Laid p k' args base arr := by
    refine ⟨hregs.1, hregs.2.1, hregs.2.2, hstarts.stackPage, ?_, hstarts.mem ▸ hcopied⟩
    rw [hstarts.perrno, hprocs, hperrno, setPerrno]
  constructor
  · rintro ⟨arr', str, hd⟩
    obtain ⟨rfl, hroom⟩ := hlaid.of_delivers hbase harr hne hargs.fit hd
    refine ⟨hne, hroom, ?_⟩
    rw [← hkept, ← hstarts.mem]
    exact hd.null
  · rintro ⟨-, hroom, hnull⟩
    refine ⟨arr, _, hlaid.delivers hbase harr hroom ?_⟩
    rw [hstarts.mem, hkept, hnull]

end

/-! ## Running a program -/

/-- The first process stores a vector, and the string `ls` for it, in its stack
    page. -/
def storeLs : List (Event .qemuE) :=
  [.exec (callRegs 0x80003ff0 11 0x80001c20 0x80001c10 0)
    [(0x80001c10, bytesOfWord 0x80001c20 4 ++ bytesOfWord 0 4), (0x80001c20, ascii "ls" ++ [0])]]

/-- It fills a page, and gives it back. -/
def fillPage : List (Event .qemuE) :=
  calls 34 0 0 0 [] ++ calls 35 0x80002000 0 0 [(0x80002000, List.replicate 512 7)]

/-- In a page that was in use, the word after the array is not zero. -/
theorem array_without_null :
    ¬∀ (m : Machine .qemuE) (p : Slot .qemuE) (k' : Kernel .qemuE) (filename argv : ℕ) (n : ℤ)
      (j : Fin (Config.numPages .qemuE)) (args : List (List UInt8)),
      Reach (machine .qemuE) free m → m.mode = .user → m.k.cpuProc = some p →
      procExecv p filename argv ((trap m).entry p) = .ok n k' → n ≠ -1 →
      PassesArgs p ((trap m).entry p) argv args j → ∃ arr str, Delivers p k' args arr str := by
  obtain ⟨m, hm, hmode, hcpu, hret, hargs, hword⟩ :
      ∃ m ∈ runFrom .qemuE ([Event.kernel, .kernel] ++ fillPage ++ storeLs), m.mode = .user ∧
      m.k.cpuProc = some ⟨0, by decide⟩ ∧
      value (procExecv ⟨0, by decide⟩ 0x80001c20 0x80001c10 ((trap m).entry ⟨0, by decide⟩)) =
        some 1 ∧
      PassesArgs ⟨0, by decide⟩ ((trap m).entry ⟨0, by decide⟩) 0x80001c10
        [ascii "ls"] ⟨2, by decide⟩ ∧
      loadWord
        (final (procExecv ⟨0, by decide⟩ 0x80001c20 0x80001c10 ((trap m).entry ⟨0, by decide⟩))).mem
        ((final (procExecv ⟨0, by decide⟩ 0x80001c20 0x80001c10
          ((trap m).entry ⟨0, by decide⟩))).trapFrame.regs
          TrapFrame.a1 + Config.regSz .qemuE * 1) (Config.regSz .qemuE) ≠ 0 := by
    decide +kernel
  obtain ⟨k', hret⟩ := value_eq_some hret
  rw [hret, final_ok] at hword
  intro hall
  obtain ⟨arr, str, hd⟩ := hall m _ k' _ _ 1 _ _ (reach_of_runFrom hm) hmode hcpu hret (by decide) hargs
  have harr : k'.trapFrame.regs TrapFrame.a1 = arr := hd.array.addr
  rw [harr] at hword
  exact hword hd.null

/-- In a page that was never used, it is. -/
theorem ls_delivered : ∃ (m : Machine .qemuE) (k' : Kernel .qemuE) (arr : ℕ) (str : ℕ → ℕ),
    Reach (machine .qemuE) free m ∧
    procExecv ⟨0, by decide⟩ 0x80001c20 0x80001c10 ((trap m).entry ⟨0, by decide⟩) = .ok 1 k' ∧
    Delivers ⟨0, by decide⟩ k' [ascii "ls"] arr str := by
  obtain ⟨m, hm, hret, hargs, hroom, hword⟩ :
      ∃ m ∈ runFrom .qemuE ([Event.kernel, .kernel] ++ storeLs),
      value (procExecv ⟨0, by decide⟩ 0x80001c20 0x80001c10 ((trap m).entry ⟨0, by decide⟩)) =
        some 1 ∧
      PassesArgs ⟨0, by decide⟩ ((trap m).entry ⟨0, by decide⟩) 0x80001c10
        [ascii "ls"] ⟨2, by decide⟩ ∧
      room .qemuE [ascii "ls"] + (if Config.mmu .qemuE then 1 else 0) ≤ Config.userStackSize .qemuE ∧
      loadWord ((trap m).entry ⟨0, by decide⟩).mem (Config.pagePtr .qemuE ⟨2, by decide⟩ +
        Config.userStackSize .qemuE - 3 * Config.regSz .qemuE) (Config.regSz .qemuE) = 0 := by
    decide +kernel
  obtain ⟨k', hret⟩ := value_eq_some hret
  obtain ⟨arr, str, hd⟩ := (execv_delivers_iff ⟨by decide, by decide, by decide, by decide, by decide⟩
    (by unfold RoundsUp; decide) ⟨.inl rfl, fun h => absurd h (by decide), .inl rfl, .inl rfl⟩
      hret (by decide)
    hargs).2 ⟨by simp, hroom, hword⟩
  exact ⟨m, k', arr, str, reach_of_runFrom hm, hret, hd⟩

end HobbyOs
