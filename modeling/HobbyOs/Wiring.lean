import HobbyOs.ShellCode

/-!
# How the processes of a pipeline are wired

What the code of `traverse` (`shell.c`) does to the descriptors of the shell and of
its children, when every `pipe` and `fork` succeeds.

* `wiring`: the descriptors of a command at its `execv`. The standard input is the
  reading end of the pipe to the left, the standard output the writing end of the pipe
  to the right.
* `Safe`: what is known of the shell's code at any of its calls, for whatever files
  the pipes get. `safe_traverse` is about all of `traverse`.
-/

namespace HobbyOs

namespace Fds

variable {T T' : Fds} {f g : FileRef} {i j fd : Shell.Fd}

/-- `fd_alloc` takes the first descriptor that is not in use. -/
theorem alloc_first (hi : T i = none) (hlow : ∀ j < i, T j ≠ none) :
    T.alloc f = (some i, Function.update T i (some f)) := by
  have hfind : (List.finRange maxProcFds).find? (fun i => (T i).isNone) = some i :=
    Outcome.find_finRange_eq_some.2
      ⟨by simp [hi], fun j hj => by simpa [Option.isSome_iff_ne_none] using hlow j hj⟩
  rw [alloc, hfind]

/-- What `pipe_open` leaves when it returns two descriptors. -/
theorem openPipe_some (h : T.openPipe (some (f, g)) = (some (i, j), T')) :
    T i = none ∧ T j = none ∧ j ≠ i ∧
    T' = Function.update (Function.update T i (some f)) j (some g) := by
  rcases alloc_cases T f with ⟨-, h0⟩ | ⟨i', hi, h0⟩
  · simp [openPipe, h0] at h
  rcases alloc_cases (Function.update T i' (some f)) g with ⟨-, h1⟩ | ⟨j', hj, h1⟩
  · simp [openPipe, h0, h1] at h
  simp only [openPipe, h0, h1, Prod.mk.injEq, Option.some.injEq] at h
  obtain ⟨⟨rfl, rfl⟩, rfl⟩ := h
  have hji : j' ≠ i' := by
    rintro rfl
    simp at hj
  exact ⟨hi, by simpa [hji] using hj, hji, rfl⟩

end Fds

namespace Shell

theorem lt_three_iff {fd : Fd} : fd < 3 ↔ fd = 0 ∨ fd = 1 ∨ fd = 2 := by
  revert fd
  decide

/-- A descriptor beyond the standard ones is none of these. -/
theorem ne_std {fd std : Fd} (h : ¬fd < 3) (hs : std < 3) : fd ≠ std := by
  rintro rfl
  exact h hs

/-- The ends of the pipes, by the depth of the command to the right. -/
abbrev Ends : Type := ℕ → Option (FileRef × FileRef)

/-- The descriptors of a command at its `execv`, for a shell with the descriptors `T₀` and a
    chain of `n` commands. -/
def wiring (T₀ : Fds) (ends : Ends) (n depth : ℕ) : Fds := fun fd =>
  if fd = 0 then if depth = 0 then T₀ 0 else (ends depth).map Prod.fst
  else if fd = 1 then if depth + 1 = n then T₀ 1 else (ends (depth + 1)).map Prod.snd
  else if fd = 2 then T₀ 2
  else none

section

variable {T₀ : Fds} {ends : Ends} {n depth : ℕ}

theorem wiring_zero :
    wiring T₀ ends n depth 0 = if depth = 0 then T₀ 0 else (ends depth).map Prod.fst := if_pos rfl

theorem wiring_one :
    wiring T₀ ends n depth 1 = if depth + 1 = n then T₀ 1 else (ends (depth + 1)).map Prod.snd :=
  (if_neg (by decide)).trans (if_pos rfl)

theorem wiring_two : wiring T₀ ends n depth 2 = T₀ 2 :=
  (if_neg (by decide)).trans ((if_neg (by decide)).trans (if_pos rfl))

theorem wiring_congr {ends' : Ends} (h0 : ends' depth = ends depth)
    (h1 : ends' (depth + 1) = ends (depth + 1)) :
    wiring T₀ ends' n depth = wiring T₀ ends n depth := by
  funext fd
  rw [wiring, wiring, h0, h1]

theorem wiring_rest {fd : Fd} (h : ¬fd < 3) : wiring T₀ ends n depth fd = none := by
  have hne := lt_three_iff.not.1 h
  simp only [not_or] at hne
  simp [wiring, hne]

end

/-- The pipes next to a command are there. -/
def Piped (ends : Ends) (n depth : ℕ) : Prop :=
  (depth ≠ 0 → ends depth ≠ none) ∧ (depth + 1 ≠ n → ends (depth + 1) ≠ none)

variable {α β : Type} {T T₀ T' : Fds} {ends : Ends} {n depth todo : ℕ} {args : List String}
  {chain : List (List String)} {pipefd : Option (Fd × Fd)} {w : Option Fd} {i j l : Fd} {f : FileRef}

/-! ## The children -/

namespace Code

/-- The descriptors and the words with which code that makes no pipes and processes gets to
    its `execv`. -/
def exec : Code α → Fds → Option (Fds × List String)
  | execv args, T => some (T, args)
  | prints _ next, T => next.exec T
  | close fd next, T => next.exec (T.close fd)
  | dup fd next, T => next.exec (T.dup fd)
  | _, _ => none

/-- What comes after the `execv` does not matter. -/
theorem exec_bind {c : Code α} {x : Fds × List String} (f : α → Code β) (h : c.exec T = some x) :
    (c.bind f).exec T = some x := by
  induction c generalizing T with
  | execv args => exact h
  | prints text next ih | close fd next ih | dup fd next ih => exact ih h
  | ret | null | pipe | fork => cases h

/-- What is open at the `execv` was open before. -/
theorem exec_subset {c : Code α} (h : c.exec T = some (T', args)) (hi : T' i = some f) :
    ∃ j, T j = some f := by
  induction c generalizing T with
  | execv args =>
    cases h
    exact ⟨i, hi⟩
  | prints text next ih => exact ih h
  | close fd next ih =>
    obtain ⟨j, hj⟩ := ih h
    by_cases hjfd : j = fd
    · subst hjfd
      simp [Fds.close] at hj
    · exact ⟨j, by simpa [Fds.close, hjfd] using hj⟩
  | dup fd next ih =>
    obtain ⟨j, hj⟩ := ih h
    rw [Fds.dup] at hj
    cases hfd : T fd with
    | none =>
      rw [hfd] at hj
      exact ⟨j, hj⟩
    | some g =>
      rw [hfd] at hj
      rcases Fds.alloc_cases T g with ⟨-, ha⟩ | ⟨k, -, ha⟩
      · exact ⟨j, by simpa [ha] using hj⟩
      · by_cases hjk : j = k
        · subst hjk
          exact ⟨fd, by simpa [ha, hfd] using hj⟩
        · exact ⟨j, by simpa [ha, hjk] using hj⟩
  | ret | null | pipe | fork => cases h

end Code

/-- `fd` in place of the descriptor `std`, unless it is `-1`. -/
def moved (T : Fds) (std : Fd) (fd : Option Fd) : Fds := fd.elim T fun fd => ((T.close std).dup fd).close fd

/-- The descriptor goes to where `std` was, if there is no free one below. -/
theorem moved_some {std : Fd} (hi : T i = some f) (hne : i ≠ std) (hlow : ∀ j < std, T j ≠ none) :
    moved T std (some i) = Function.update (Function.update T std (some f)) i none := by
  have hclosed : T.close std i = some f := by simpa [Fds.close, hne] using hi
  have hdup : (T.close std).dup i = Function.update T std (some f) := by
    rw [Fds.dup, hclosed]
    dsimp only
    rw [Fds.alloc_first (i := std) (by simp [Fds.close]) fun j hj => by
      simpa [Fds.close, hj.ne] using hlow j hj,
      Fds.close, Function.update_idem]
  rw [moved, Option.elim_some, hdup, Fds.close]

theorem exec_child : (Code.child args pipefd w).exec T =
    some (moved (without (moved T 0 (pipefd.map Prod.fst)) (pipefd.map Prod.snd)) 1 w, args) := by
  cases pipefd <;> cases w <;> rfl

/-- The shell's descriptors at the `fork` for a command: the standard ones, the pipe of the command,
    and the writing end of the pipe to its right. -/
structure AtFork (T₀ : Fds) (ends : Ends) (n depth : ℕ) (pipefd : Option (Fd × Fd))
    (w : Option Fd) (T : Fds) : Prop where
  std : ∀ fd < 3, T fd = T₀ fd ∧ T₀ fd ≠ none
  closed : ∀ fd, ¬fd < 3 → pipefd.map Prod.fst ≠ some fd → pipefd.map Prod.snd ≠ some fd →
    w ≠ some fd → T fd = none
  left : (depth = 0 ∧ pipefd = none ∧ ends depth = none) ∨ depth ≠ 0 ∧ ∃ i j r e,
    pipefd = some (i, j) ∧ ends depth = some (r, e) ∧
    T i = some r ∧ T j = some e ∧ ¬i < 3 ∧ ¬j < 3 ∧ j ≠ i
  right : (depth + 1 = n ∧ w = none ∧ ends (depth + 1) = none) ∨ depth + 1 ≠ n ∧ ∃ l r e,
    w = some l ∧ ends (depth + 1) = some (r, e) ∧
    T l = some e ∧ ¬l < 3 ∧ pipefd.map Prod.fst ≠ some l ∧ pipefd.map Prod.snd ≠ some l

namespace AtFork

/-- The child's descriptors when it has moved the reading end of its pipe and closed the writing end. -/
theorem after_left (h : AtFork T₀ ends n depth pipefd w T) {T₂ : Fds}
    (hT : T₂ = without (moved T 0 (pipefd.map Prod.fst)) (pipefd.map Prod.snd)) :
    T₂ 0 = (if depth = 0 then T₀ 0 else (ends depth).map Prod.fst) ∧ T₂ 0 ≠ none ∧
    T₂ 1 = T₀ 1 ∧ T₂ 2 = T₀ 2 ∧
      (∀ fd, ¬fd < 3 → w ≠ some fd → T₂ fd = none) ∧ ∀ l ∈ w, ¬l < 3 → T₂ l = T l := by
  obtain ⟨h0, hopen⟩ := h.std 0 (by decide)
  obtain ⟨h1, -⟩ := h.std 1 (by decide)
  obtain ⟨h2, -⟩ := h.std 2 (by decide)
  -- The first command has no pipe on its left, and nothing is moved.
  rcases h.left with ⟨hd, rfl, -⟩ | ⟨hd, i, j, r, e, rfl, hends, hi, -, hi3, hj3, hji⟩
  · obtain rfl : T₂ = T := hT
    refine ⟨by rw [if_pos hd, h0], by rwa [h0], h1, h2, fun fd hfd hw => ?_, fun _ _ _ => rfl⟩
    exact h.closed fd hfd (by simp) (by simp) hw
  · -- The ends of the pipe are not at the standard descriptors.
    have hne : ∀ {fd : Fd}, fd < 3 → fd ≠ i ∧ fd ≠ j :=
      fun hfd => ⟨(ne_std hi3 hfd).symm, (ne_std hj3 hfd).symm⟩
    have hi0 : i ≠ 0 := (hne (by decide)).1.symm
    have hmoved : T₂ = Function.update (Function.update (Function.update T 0 (some r)) i none) j none := by
      rw [hT, Option.map_some, moved_some hi hi0 fun j hj => absurd hj (Nat.not_lt_zero _)]
      rfl
    have hstd : ∀ {fd : Fd}, fd < 3 → T₂ fd = Function.update T 0 (some r) fd := by
      intro fd hfd
      rw [hmoved, Function.update_of_ne (hne hfd).2, Function.update_of_ne (hne hfd).1]
    have hzero : T₂ 0 = some r := (hstd (by decide)).trans (Function.update_self ..)
    refine ⟨?_, by simp [hzero], ?_, ?_, fun fd hfd hw => ?_, fun l hw hl => ?_⟩
    · rw [hzero, if_neg hd, hends]
      rfl
    · rw [hstd (by decide), Function.update_of_ne (by decide), h1]
    · rw [hstd (by decide), Function.update_of_ne (by decide), h2]
    · rw [hmoved]
      by_cases hfj : fd = j
      · simp [hfj]
      by_cases hfi : fd = i
      · simp [hfi, hji.symm]
      rw [Function.update_of_ne hfj, Function.update_of_ne hfi, Function.update_of_ne (ne_std hfd (by decide))]
      exact h.closed fd hfd (by simpa using Ne.symm hfi) (by simpa using Ne.symm hfj) hw
    · obtain ⟨-, l', r', e', hw', -, -, -, hli, hlj⟩ : depth + 1 ≠ n ∧ _ :=
        h.right.resolve_left fun hn => by
        rw [hn.2.1] at hw
        cases hw
      obtain rfl : l = l' := Option.some.inj (hw.symm.trans hw')
      rw [hmoved, Function.update_of_ne (by simpa using Ne.symm hlj),
        Function.update_of_ne (by simpa using Ne.symm hli),
        Function.update_of_ne (ne_std hl (by decide))]

/-- At its `execv` the child is wired as it should. -/
theorem exec_child (h : AtFork T₀ ends n depth pipefd w T) :
    (Code.child args pipefd w).exec T = some (wiring T₀ ends n depth, args) := by
  rw [Shell.exec_child]
  generalize hT : without (moved T 0 (pipefd.map Prod.fst)) (pipefd.map Prod.snd) = T₂
  obtain ⟨h0, hopen, h1, h2, hrest, hl⟩ := h.after_left hT.symm
  suffices moved T₂ 1 w = wiring T₀ ends n depth by rw [this]
  funext fd
  -- The last command keeps the output of the shell, any other gets its right pipe.
  rcases h.right with ⟨hn, rfl, -⟩ | ⟨hn, l, r, e, rfl, hends, hle, hl3, -, -⟩
  · show T₂ fd = _
    by_cases hfd : fd < 3
    · rcases lt_three_iff.1 hfd with rfl | rfl | rfl
      · exact h0
      · rw [h1, wiring_one, if_pos hn]
      · rw [h2, wiring_two]
    · rw [hrest fd hfd (by simp), wiring_rest hfd]
  · have hlT : T₂ l = some e := (hl l rfl hl3).trans hle
    have hne : ∀ {fd : Fd}, fd < 3 → fd ≠ l := fun hfd => (ne_std hl3 hfd).symm
    rw [moved_some hlT (hne (by decide)).symm fun j hj => by
      obtain rfl : j = 0 := by
        revert j
        decide
      exact hopen]
    by_cases hfd : fd < 3
    · rw [Function.update_of_ne (hne hfd)]
      rcases lt_three_iff.1 hfd with rfl | rfl | rfl
      · rw [Function.update_of_ne (by decide)]
        exact h0
      · rw [Function.update_self, wiring_one, if_neg hn, hends]
        rfl
      · rw [Function.update_of_ne (by decide), h2, wiring_two]
    · rw [wiring_rest hfd]
      by_cases hfl : fd = l
      · rw [hfl, Function.update_self]
      · rw [Function.update_of_ne hfl, Function.update_of_ne (ne_std hfd (by decide)),
          hrest fd hfd (by simpa using Ne.symm hfl)]

theorem piped (h : AtFork T₀ ends n depth pipefd w T) : Piped ends n depth := by
  refine ⟨fun hd => ?_, fun hn => ?_⟩
  · obtain ⟨-, i, j, r, e, -, hends, -⟩ := h.left.resolve_left fun hl => hd hl.1
    simp [hends]
  · obtain ⟨-, l, r, e, -, hends, -⟩ := h.right.resolve_left fun hr => hn hr.1
    simp [hends]

end AtFork

/-! ## The shell -/

/-- What the shell has open while the commands from `todo` on are started: the standard descriptors, and
    the ends of the pipes that commands still to be started will have. -/
structure Keeps (T₀ : Fds) (ends : Ends) (todo : ℕ) (T : Fds) : Prop where
  std : ∀ fd < 3, T fd = T₀ fd
  reading : ∀ d r e, ends d = some (r, e) → d < todo → ∃ fd, T fd = some r
  writing : ∀ d r e, ends d = some (r, e) → d ≤ todo → ∃ fd, T fd = some e

/-- The code of the shell leaves the descriptors as they were when all commands are started, and each of
    these is wired as it should, whatever files the pipes get. -/
def Safe (chain : List (List String)) (T₀ : Fds) : Code α → Fds → Ends → (todo : ℕ) → Prop
  | .ret _, T, _, todo => todo = 0 ∧ T = T₀
  | .close fd next, T, ends, todo => Keeps T₀ ends todo T ∧ Safe chain T₀ next (T.close fd) ends todo
  | .dup fd next, T, ends, todo => Keeps T₀ ends todo T ∧ Safe chain T₀ next (T.dup fd) ends todo
  | .pipe depth next, T, ends, todo =>
    Keeps T₀ ends todo T ∧ todo = depth + 1 ∧ depth ≠ 0 ∧ depth < chain.length ∧
      ∀ e pipefd T', T.openPipe (some e) = (some pipefd, T') →
        Safe chain T₀ (next (some pipefd)) T' (Function.update ends depth (some e)) todo
  | .fork depth next, T, ends, todo =>
    Keeps T₀ ends todo T ∧ todo = depth + 1 ∧ Piped ends chain.length depth ∧
      (∃ args, chain[depth]? = some args ∧
        (next (some 0)).exec T = some (wiring T₀ ends chain.length depth, args)) ∧
      ∀ pid ≠ 0, Safe chain T₀ (next (some pid)) T ends depth
  | .null, _, _, _ | .execv _, _, _, _ | .prints _ _, _, _, _ => False

/-- The shell has started the commands from `m` on, and has kept the writing end `w` for the one to the left. -/
structure Handed (T₀ : Fds) (ends : Ends) (n m : ℕ) (w : Option Fd) (T : Fds) : Prop where
  low : ∀ d < m, ends d = none
  hand : ((m = 0 ∨ m = n) ∧ w = none ∧ T = T₀ ∧ ends m = none) ∨
    m ≠ 0 ∧ m ≠ n ∧ ∃ l r e, w = some l ∧
    ends m = some (r, e) ∧ T = Function.update T₀ l (some e) ∧ T₀ l = none

theorem without_apply {r : Option Fd} {fd : Fd} : without T r fd = if r = some fd then none else T fd := by
  split_ifs with hr
  · subst hr
    exact Function.update_self ..
  · exact without_of_ne hr

namespace AtFork

/-- The descriptors of the command's own pipe. -/
theorem left_ends (h : AtFork T₀ ends n depth pipefd w T) {r e : FileRef} (hends : ends depth = some (r, e)) :
    ∃ i j, pipefd = some (i, j) ∧ T i = some r ∧ T j = some e ∧ ¬i < 3 ∧ j ≠ i := by
  rcases h.left with ⟨-, -, hnone⟩ | ⟨-, i, j, r', e', hpipefd, hends', hi, hj, hi3, -, hji⟩
  · simp [hnone] at hends
  · obtain ⟨rfl, rfl⟩ : r' = r ∧ e' = e := by simpa [hends'] using hends
    exact ⟨i, j, hpipefd, hi, hj, hi3, hji⟩

/-- The descriptor of the pipe to the right. -/
theorem right_ends (h : AtFork T₀ ends n depth pipefd w T) {r e : FileRef}
    (hends : ends (depth + 1) = some (r, e)) :
    ∃ l, T l = some e := by
  rcases h.right with ⟨-, -, hnone⟩ | ⟨-, l, r', e', -, hends', hl, -⟩
  · simp [hnone] at hends
  · obtain ⟨rfl, rfl⟩ : r' = r ∧ e' = e := by simpa [hends'] using hends
    exact ⟨l, hl⟩

/-- Before the `fork`, the shell has what the command and those to its left will have. -/
theorem keeps (h : AtFork T₀ ends n depth pipefd w T) (hlow : ∀ d < depth, ends d = none) :
    Keeps T₀ ends (depth + 1) T where
  std fd hfd := (h.std fd hfd).1
  reading d r e hends hd := by
    rcases (Nat.lt_succ_iff.1 hd).lt_or_eq with hlt | rfl
    · simp [hlow d hlt] at hends
    · obtain ⟨i, -, -, hi, -⟩ := h.left_ends hends
      exact ⟨i, hi⟩
  writing d r e hends hd := by
    rcases hd.lt_or_eq with hlt | rfl
    · rcases (Nat.lt_succ_iff.1 hlt).lt_or_eq with hlt | rfl
      · simp [hlow d hlt] at hends
      · obtain ⟨-, j, -, -, hj, -⟩ := h.left_ends hends
        exact ⟨j, hj⟩
    · exact h.right_ends hends

/-- After the `fork`, the shell need not keep more than the writing end of the command's pipe. -/
theorem keeps_after (h : AtFork T₀ ends n depth pipefd w T) (hlow : ∀ d < depth, ends d = none)
    (hT : ∀ fd, fd < 3 ∨ pipefd.map Prod.snd = some fd → T' fd = T fd) : Keeps T₀ ends depth T' where
  std fd hfd := (hT fd (.inl hfd)).trans (h.std fd hfd).1
  reading d r e hends hd := by simp [hlow d hd] at hends
  writing d r e hends hd := by
    rcases hd.lt_or_eq with hlt | rfl
    · simp [hlow d hlt] at hends
    · obtain ⟨i, j, rfl, -, hj, -⟩ := h.left_ends hends
      exact ⟨j, (hT j (.inr rfl)).trans hj⟩

/-- What the shell closes after the `fork` is none of the descriptors it keeps. -/
theorem closed_ne (h : AtFork T₀ ends n depth pipefd w T) {fd : Fd}
    (hfd : fd < 3 ∨ pipefd.map Prod.snd = some fd) :
    pipefd.map Prod.fst ≠ some fd ∧ w ≠ some fd := by
  constructor
  · rintro hi
    rcases h.left with ⟨-, rfl, -⟩ | ⟨-, i, j, r, e, rfl, -, -, -, hi3, -, hji⟩
    · cases hi
    · cases hi
      rcases hfd with hfd | hj
      · exact hi3 hfd
      · exact hji (Option.some.inj hj)
  · rintro rfl
    rcases h.right with ⟨-, hw, -⟩ | ⟨-, l, r, e, hw, -, -, hl3, -, hj⟩
    · cases hw
    · cases hw
      exact hfd.elim hl3 hj

/-- What the shell hands to the left. -/
theorem handed (h : AtFork T₀ ends n depth pipefd w T) (hlow : ∀ d < depth, ends d = none) (hn : depth < n)
    (hT₀ : ∀ fd, ¬fd < 3 → T₀ fd = none) :
    Handed T₀ ends n depth (pipefd.map Prod.snd) (without (without T (pipefd.map Prod.fst)) w) := by
  -- After the closes only the standard descriptors and the write end are left.
  have happly : ∀ fd, without (without T (pipefd.map Prod.fst)) w fd =
      if fd < 3 ∨ pipefd.map Prod.snd = some fd then T fd else none := by
    intro fd
    rw [without_apply, without_apply]
    split_ifs with hw hkeep hi hkeep
    · exact absurd hw (h.closed_ne hkeep).2
    · rfl
    · exact absurd hi (h.closed_ne hkeep).1
    · rfl
    · rfl
    · rename_i hkeep
      rw [not_or] at hkeep
      exact h.closed fd hkeep.1 hi hkeep.2 hw
  refine ⟨hlow, ?_⟩
  rcases h.left with ⟨hd, rfl, hends⟩ | ⟨hd, i, j, r, e, rfl, hends, -, hj, -, hj3, -⟩
  · refine .inl ⟨.inl hd, rfl, funext fun fd => ?_, hends⟩
    rw [happly]
    split_ifs with hfd
    · exact (h.std fd (hfd.resolve_right (by simp))).1
    · exact (hT₀ fd fun h3 => hfd (.inl h3)).symm
  · refine .inr ⟨hd, hn.ne, j, r, e, rfl, hends, funext fun fd => ?_, hT₀ j hj3⟩
    rw [happly]
    by_cases hfj : fd = j
    · subst hfj
      rw [Function.update_self, if_pos (.inr rfl), hj]
    · rw [Function.update_of_ne hfj]
      split_ifs with hfd
      · exact (h.std fd (hfd.resolve_right (by simpa using Ne.symm hfj))).1
      · exact (hT₀ fd fun h3 => hfd (.inl h3)).symm

end AtFork

namespace Handed

/-- What the shell has open when it goes on to the left. -/
theorem keeps (h : Handed T₀ ends n todo w T) (hT₀ : ∀ fd < 3, T₀ fd ≠ none) :
    Keeps T₀ ends todo T where
  std fd hfd := by
    rcases h.hand with ⟨-, -, rfl, -⟩ | ⟨-, -, l, r, e, -, -, rfl, hl⟩
    · rfl
    · refine Function.update_of_ne ?_ _ _
      rintro rfl
      exact hT₀ fd hfd hl
  reading d r e hends hd := by simp [h.low d hd] at hends
  writing d r e hends hd := by
    rcases hd.lt_or_eq with hlt | rfl
    · simp [h.low d hlt] at hends
    · rcases h.hand with ⟨-, -, -, hnone⟩ | ⟨-, -, l, r', e', -, hends', rfl, -⟩
      · simp [hnone] at hends
      · obtain ⟨rfl, rfl⟩ : r' = r ∧ e' = e := by simpa [hends'] using hends
        exact ⟨l, Function.update_self ..⟩

/-- The first command has no pipe. -/
theorem first (h : Handed T₀ ends n 1 w T) (hT₀ : ∀ fd, T₀ fd ≠ none ↔ fd < 3) :
    AtFork T₀ ends n 0 none w T := by
  have hends := h.low 0 Nat.zero_lt_one
  rcases h.hand with ⟨hn, rfl, rfl, hnone⟩ | ⟨-, hn, l, r, e, rfl, hends', rfl, hl⟩
  · exact ⟨fun fd hfd => ⟨rfl, (hT₀ fd).2 hfd⟩, fun fd hfd _ _ _ => by
      simpa using (hT₀ fd).not.2 hfd,
      .inl ⟨rfl, rfl, hends⟩, .inl ⟨by omega, rfl, hnone⟩⟩
  · have hl3 : ¬l < 3 := fun hl3 => (hT₀ l).2 hl3 hl
    refine ⟨fun fd hfd => ⟨Function.update_of_ne (ne_std hl3 hfd).symm _ _, (hT₀ fd).2 hfd⟩,
      fun fd hfd _ _ hw => ?_,
      .inl ⟨rfl, rfl, hends⟩,
      .inr ⟨hn, l, r, e, rfl, hends', Function.update_self .., hl3, by simp, by simp⟩⟩
    rw [Function.update_of_ne (by simpa using Ne.symm hw)]
    simpa using (hT₀ fd).not.2 hfd

/-- The other ones have the pipe that was made. -/
theorem piped (h : Handed T₀ ends n (depth + 1) w T) (hT₀ : ∀ fd, T₀ fd ≠ none ↔ fd < 3)
    (hd : depth ≠ 0) {r e : FileRef}
    (ho : T.openPipe (some (r, e)) = (some (i, j), T')) :
    AtFork T₀ (Function.update ends depth (some (r, e))) n depth (some (i, j)) w T' := by
  obtain ⟨hi, hj, hji, rfl⟩ := Fds.openPipe_some ho
  have hstd : ∀ fd < 3, T fd = T₀ fd := (h.keeps fun fd => (hT₀ fd).2).std
  have hfree : ∀ {fd : Fd}, T fd = none → ¬fd < 3 :=
    fun hfd h3 => (hT₀ _).2 h3 ((hstd _ h3).symm.trans hfd)
  have hi3 := hfree hi
  have hj3 := hfree hj
  have hTi : Function.update (Function.update T i (some r)) j (some e) i = some r := by
    rw [Function.update_of_ne hji.symm, Function.update_self]
  have hends : Function.update ends depth (some (r, e)) depth = some (r, e) := Function.update_self ..
  have hright : Function.update ends depth (some (r, e)) (depth + 1) = ends (depth + 1) :=
    Function.update_of_ne (Nat.succ_ne_self depth) _ _
  refine ⟨fun fd hfd => ⟨?_, (hT₀ fd).2 hfd⟩, fun fd hfd hfi hfj hw => ?_,
    .inr ⟨hd, i, j, r, e, rfl, hends, hTi, Function.update_self .., hi3, hj3, hji⟩, ?_⟩
  · rw [Function.update_of_ne (ne_std hj3 hfd).symm, Function.update_of_ne (ne_std hi3 hfd).symm, hstd fd hfd]
  · rw [Function.update_of_ne (by simpa using Ne.symm hfj), Function.update_of_ne (by simpa using Ne.symm hfi)]
    rcases h.hand with ⟨-, rfl, rfl, -⟩ | ⟨-, -, l, r', e', rfl, -, rfl, -⟩
    · simpa using (hT₀ fd).not.2 hfd
    · rw [Function.update_of_ne (by simpa using Ne.symm hw)]
      simpa using (hT₀ fd).not.2 hfd
  · rw [hright]
    rcases h.hand with ⟨hn, rfl, rfl, hnone⟩ | ⟨-, hn, l, r', e', rfl, hends', rfl, hl⟩
    · exact .inl ⟨by omega, rfl, hnone⟩
    · have hne : ∀ {fd : Fd}, Function.update T₀ l (some e') fd = none → fd ≠ l := by
        rintro fd hfd rfl
        simp at hfd
      refine .inr ⟨hn, l, r', e', rfl, hends', ?_, fun hl3 => (hT₀ l).2 hl3 hl, by
        simpa using hne hi, by simpa using hne hj⟩
      rw [Function.update_of_ne (hne hj).symm, Function.update_of_ne (hne hi).symm, Function.update_self]

end Handed

theorem safe_closeIf {next : Unit → Code α} {fd : Option Fd} (hT : Keeps T₀ ends todo T)
    (h : Safe chain T₀ (next ()) (without T fd) ends todo) :
    Safe chain T₀ ((Code.closeIf fd).bind next) T ends todo := by
  cases fd with
  | none => exact h
  | some fd => exact ⟨hT, h⟩

variable {K : Option Fd → Code α}

/-- `traverse` from the `fork` on. -/
theorem safe_spawn (h : AtFork T₀ ends chain.length depth pipefd w T) (hlow : ∀ d < depth, ends d = none)
    (hT₀ : ∀ fd, T₀ fd ≠ none ↔ fd < 3) (hargs : chain[depth]? = some args)
    (hK : ∀ w T ends, Handed T₀ ends chain.length depth w T → Safe chain T₀ (K w) T ends depth) :
    Safe chain T₀ ((Code.spawn args depth pipefd w).bind K) T ends (depth + 1) := by
  refine ⟨h.keeps hlow, rfl, h.piped, ⟨args, hargs, ?_⟩, fun pid hpid => ?_⟩
  · show (((Code.child args pipefd w).bind _).bind K).exec T = _
    exact Code.exec_bind K (Code.exec_bind _ h.exec_child)
  · obtain ⟨pid, rfl⟩ := Nat.exists_eq_succ_of_ne_zero hpid
    show Safe chain T₀ (((Code.closeIf (pipefd.map Prod.fst)).bind fun _ => (Code.closeIf w).bind fun _ =>
      .ret (pipefd.map Prod.snd)).bind K) T ends depth
    simp only [Code.bind_assoc]
    refine safe_closeIf (h.keeps_after hlow fun _ _ => rfl)
      (safe_closeIf (h.keeps_after hlow fun fd hfd => ?_) ?_)
    · exact without_of_ne (h.closed_ne hfd).1
    · exact hK _ _ _ (h.handed hlow (List.getElem?_eq_some_iff.1 hargs).1 fun fd hfd => by
        simpa using (hT₀ fd).not.2 hfd)

/-- `traverse` once the chain to the right is started. -/
theorem safe_start (h : Handed T₀ ends chain.length (depth + 1) w T)
    (hT₀ : ∀ fd, T₀ fd ≠ none ↔ fd < 3)
    (hargs : chain[depth]? = some args)
    (hK : ∀ w T ends, Handed T₀ ends chain.length depth w T → Safe chain T₀ (K w) T ends depth) :
    Safe chain T₀ ((Code.start args depth w).bind K) T ends (depth + 1) := by
  rw [Code.start]
  split
  · rename_i hd
    refine ⟨h.keeps fun fd => (hT₀ fd).2, rfl, hd.ne', (List.getElem?_eq_some_iff.1 hargs).1,
      fun e pipefd T' ho => ?_⟩
    refine safe_spawn (h.piped hT₀ hd.ne' ho) (fun d hd => ?_) hT₀ hargs hK
    rw [Function.update_of_ne hd.ne]
    exact h.low d (Nat.lt_succ_of_lt hd)
  · rename_i hd
    obtain rfl : depth = 0 := by omega
    exact safe_spawn (h.first hT₀) (by simp) hT₀ hargs hK

/-- The commands of the chain from `depth` on, for whatever the shell goes on with. -/
theorem safe_traverse_bind {next : List (List String)} (hT₀ : ∀ fd, T₀ fd ≠ none ↔ fd < 3)
    (hdrop : chain.drop depth = args :: next)
    (hK : ∀ w T ends, Handed T₀ ends chain.length depth w T → Safe chain T₀ (K w) T ends depth) :
    Safe chain T₀ ((Code.traverse (args :: next) depth).bind K) T₀ (fun _ => none) chain.length := by
  have hargs : chain[depth]? = some args := by
    rw [← List.head?_drop, hdrop, List.head?_cons]
  have hnext : chain.drop (depth + 1) = next := by
    rw [← List.tail_drop, hdrop, List.tail_cons]
  induction next generalizing depth args K with
  | nil =>
    have hlen : chain.length = depth + 1 := by
      have := congrArg List.length hdrop
      simp only [List.length_drop, List.length_singleton] at this
      omega
    have hhanded : Handed T₀ (fun _ => none) chain.length (depth + 1) none T₀ :=
      ⟨fun _ _ => rfl, .inl ⟨.inr hlen.symm, rfl, rfl, rfl⟩⟩
    have hstart := safe_start hhanded hT₀ hargs hK
    rwa [← hlen] at hstart
  | cons args' next ih =>
    show Safe chain T₀
      (((Code.traverse (args' :: next) (depth + 1)).bind fun w => Code.start args depth w).bind K) T₀ _ _
    rw [Code.bind_assoc]
    refine ih hnext (fun w T ends h => safe_start h hT₀ hargs hK) ?_ ?_
    · rw [← List.head?_drop, hnext, List.head?_cons]
    · rw [← List.tail_drop, hnext, List.tail_cons]

/-- `traverse(chain, 0)` of a shell with just the standard descriptors open. -/
theorem safe_traverse (hne : chain ≠ []) (hT₀ : ∀ fd, T₀ fd ≠ none ↔ fd < 3) :
    Safe chain T₀ (Code.traverse chain 0) T₀ (fun _ => none) chain.length := by
  cases chain with
  | nil => exact absurd rfl hne
  | cons args next =>
    rw [← (Code.traverse (args :: next) 0).bind_ret]
    refine safe_traverse_bind hT₀ List.drop_zero fun w T ends h => ?_
    rcases h.hand with ⟨-, -, hT, -⟩ | ⟨h0, -⟩
    · exact ⟨rfl, hT⟩
    · exact absurd rfl h0

end Shell

end HobbyOs
