import Mathlib.Data.List.Basic
import HobbyOs.Bakedinfs

/-!
# Splitting paths

How `bifs_open` and `bifs_opendirpath` take a path apart, whatever the two
functions do that look one component up: they are parameters here
(`openBy`, `opendirpathBy`), and the functions of `bakedinfs.c` are the instance
at `bifs_opendir` and `bifs_openfile` (`bifsOpen_eq`).

Both walk over the characters, with the places of the last slash and of the next
one; here they are related to the list of the components (`pathOf`).

* `opendirpathBy_pathOf`, `openBy_pathOf`: the lookups for any path that starts
  with a slash. An empty component is looked up like any other one, but for the
  last directory (`trimEmpty`).
* `path_splitting`: the lookups for a path without empty components.
-/

namespace HobbyOs

open Outcome

variable {cfg : Config} {path c : List UInt8} {cs done : List (List UInt8)}

/-! ## Components -/

/-- The path with the given components. -/
def pathOf (cs : List (List UInt8)) : List UInt8 := cs.flatMap fun c => slash :: c

@[simp] theorem pathOf_nil : pathOf [] = [] := rfl

@[simp] theorem pathOf_cons : pathOf (c :: cs) = slash :: (c ++ pathOf cs) := rfl

theorem pathOf_append (cs cs' : List (List UInt8)) : pathOf (cs ++ cs') = pathOf cs ++ pathOf cs' :=
  List.flatMap_append ..

theorem length_pathOf_snoc (done : List (List UInt8)) (c : List UInt8) :
    (pathOf (done ++ [c])).length = (pathOf done).length + 1 + c.length := by
  rw [pathOf_append, pathOf_cons, pathOf_nil, List.append_nil, List.length_append, List.length_cons]
  omega

theorem length_le_pathOf (cs : List (List UInt8)) : cs.length ≤ (pathOf cs).length := by
  induction cs with
  | nil => exact Nat.le_refl _
  | cons c cs ih =>
    rw [pathOf_cons, List.length_cons, List.length_cons, List.length_append]
    omega

theorem charAt_append (a b : List UInt8) : charAt (a ++ b) a.length = charAt b 0 := by
  rw [charAt, charAt, List.getD_eq_getElem?_getD, List.getD_eq_getElem?_getD,
    List.getElem?_append_right (Nat.le_refl _), Nat.sub_self]

/-- The next slash is at the end of the component. -/
theorem nextSlash_component {a rest : List UInt8} (hc : slash ∉ c)
    (hrest : rest = [] ∨ charAt rest 0 = slash) :
    nextSlash (a ++ c ++ rest) a.length = a.length + c.length := by
  rw [nextSlash, List.append_assoc, List.drop_left]
  refine congrArg (fun l => a.length + List.length l) ?_
  have hall : ∀ x ∈ c, decide (x ≠ slash) = true := by
    intro x hx
    rw [decide_eq_true_eq]
    rintro rfl
    exact hc hx
  rw [List.takeWhile_append_of_pos hall]
  cases rest with
  | nil => rw [List.takeWhile_nil, List.append_nil]
  | cons x rest =>
    obtain rfl : x = slash := by simpa [charAt] using hrest
    rw [List.takeWhile_cons_of_neg (by simp), List.append_nil]

/-- The last character of a component is not a slash. -/
theorem charAt_component {a : List UInt8} (rest : List UInt8) (hne : c ≠ []) (hc : slash ∉ c) :
    charAt (a ++ c ++ rest) (a.length + c.length - 1) ≠ slash := by
  have hlen : 0 < c.length := List.length_pos_iff.2 hne
  have hlt : c.length - 1 < c.length := by omega
  have hlast : charAt (a ++ c ++ rest) (a.length + c.length - 1) = c.get ⟨c.length - 1, hlt⟩ := by
    rw [charAt, List.getD_eq_getElem?_getD, List.append_assoc, List.getElem?_append_right (by omega),
      List.getElem?_append_left (by omega), show a.length + c.length - 1 - a.length = c.length - 1 by omega,
      List.getElem?_eq_getElem hlt, Option.getD_some, List.get_eq_getElem]
  intro h
  rw [hlast] at h
  exact hc (h ▸ List.get_mem c _)

/-- A component in the middle of a path. -/
theorem split_component {rest : List UInt8} (hpath : path = pathOf done ++ pathOf (c :: cs) ++ rest) :
    path = (pathOf done ++ [slash]) ++ c ++ (pathOf cs ++ rest) := by
  rw [hpath, pathOf_cons]
  simp

theorem drop_component {rest : List UInt8} (hpath : path = pathOf done ++ pathOf (c :: cs) ++ rest) :
    path.drop ((pathOf done).length + 1) = c ++ (pathOf cs ++ rest) := by
  rw [split_component hpath, List.append_assoc,
    show (pathOf done).length + 1 = (pathOf done ++ [slash]).length by simp, List.drop_left]

/-- After the components comes the end of the path, or a slash. -/
theorem charAt_pathOf_append {rest : List UInt8} (hrest : rest = [] ∨ charAt rest 0 = slash) :
    pathOf cs ++ rest = [] ∨ charAt (pathOf cs ++ rest) 0 = slash := by
  cases cs with
  | nil => exact hrest
  | cons c cs => exact .inr rfl

theorem nextSlash_pathOf {rest : List UInt8} (hc : slash ∉ c) (hrest : rest = [] ∨ charAt rest 0 = slash)
    (hpath : path = pathOf done ++ pathOf (c :: cs) ++ rest) :
    nextSlash path ((pathOf done).length + 1) = (pathOf done).length + 1 + c.length := by
  have hrest' : pathOf cs ++ rest = [] ∨ charAt (pathOf cs ++ rest) 0 = slash := charAt_pathOf_append hrest
  have h := nextSlash_component (a := pathOf done ++ [slash]) hc hrest'
  rwa [← split_component hpath, List.length_append, List.length_singleton] at h

/-- A component starts with a slash. -/
theorem charAt_slash {rest : List UInt8} (hpath : path = pathOf done ++ pathOf (c :: cs) ++ rest) :
    charAt path (pathOf done).length = slash := by
  rw [hpath, List.append_assoc, charAt_append]
  rfl

theorem slash_ne_zero : slash ≠ 0 := by decide

/-! ## Lookups as parameters -/

/-- A function that looks a part of a path up in a directory: from a position of
    the path to another one. -/
abbrev Lookup (cfg : Config) (α : Type) :=
  Fin bifsMaxDirs → List UInt8 → ℕ → ℕ → KM cfg (Option α)

/-- The end of `bifs_open`: a file is looked up in the directory that some lookups
    have found. -/
def openFrom (dirs : KM cfg (Option (Fin bifsMaxDirs)))
    (file : Fin bifsMaxDirs → KM cfg (Option (Fin bifsMaxFiles))) : KM cfg (ℤ ⊕ Fin bifsMaxFiles) := do
  match ← dirs with
  | none => return .inl (-ENOENT)
  | some dir =>
    match ← file dir with
    | none => return .inl (-ENOENT)
    | some j => return .inr j

section

variable (opendir : Lookup cfg (Fin bifsMaxDirs)) (openfile : Lookup cfg (Fin bifsMaxFiles))

/-- `opendirLoop`, for any lookup. -/
def opendirLoopBy (path : List UInt8) (stop : ℕ) :
    (turns : ℕ) → Fin bifsMaxDirs → (prev pos : ℕ) → KM cfg (Option (Fin bifsMaxDirs × ℕ × ℕ))
  | 0, dir, prev, pos => return some (dir, prev, pos)
  | turns + 1, dir, prev, pos => do
    if charAt path pos ≠ 0 ∧ pos < stop then
      match ← opendir dir path (prev + 1) pos with
      | none => return none
      | some d => opendirLoopBy path stop turns d pos (nextSlash path (pos + 1))
    else return some (dir, prev, pos)

/-- The end of `bifs_opendirpath`, after its loop. -/
def opendirTailBy (path : List UInt8) (stop : ℕ) :
    Option (Fin bifsMaxDirs × ℕ × ℕ) → KM cfg (Option (Fin bifsMaxDirs))
  | none => return none
  | some (dir, prev, pos) =>
    if charAt path (pos - 1) ≠ slash ∧ pos ≤ stop then opendir dir path (prev + 1) pos
    else return some dir

/-- `bifs_opendirpath`, for any lookup. -/
def opendirpathBy (path : List UInt8) (stop : ℕ) : KM cfg (Option (Fin bifsMaxDirs)) :=
  opendirLoopBy opendir path stop path.length bifsRoot 0 (nextSlash path 1) >>= opendirTailBy opendir path stop

/-- `bifs_open`, for any lookups. -/
def openBy (path : List UInt8) : KM cfg (ℤ ⊕ Fin bifsMaxFiles) := do
  if charAt path 0 ≠ slash then return .inl (-ENOSYS)
  let (last, zeroPos) := lastSlash path (path.length + 1) 0 0
  openFrom (opendirpathBy opendir path last) fun dir => openfile dir path (last + 1) zeroPos

/-- The lookups of the components of a path one after the other, the first of
    them after the slash at `pos`. -/
def descendBy (path : List UInt8) : Fin bifsMaxDirs → ℕ → List (List UInt8) →
    KM cfg (Option (Fin bifsMaxDirs))
  | dir, _, [] => return some dir
  | dir, pos, c :: cs => do
    match ← opendir dir path (pos + 1) (pos + 1 + c.length) with
    | none => return none
    | some d => descendBy path d (pos + 1 + c.length) cs

end

theorem opendirLoop_eq (path : List UInt8) (stop turns : ℕ) (dir : Fin bifsMaxDirs) (prev pos : ℕ) :
    (opendirLoop path stop turns dir prev pos : KM cfg _) = opendirLoopBy bifsOpendir path stop
      turns dir prev pos := by
  induction turns generalizing dir prev pos with
  | zero => rfl
  | succ turns ih =>
    rw [opendirLoop, opendirLoopBy]
    refine ite_congr rfl (fun _ => congrArg _ (funext fun o => ?_)) fun _ => rfl
    cases o with
    | none => rfl
    | some d => exact ih d pos _

/-- `bifs_opendirpath` is the instance at `bifs_opendir`. -/
theorem bifsOpendirpath_eq (path : List UInt8) (stop : ℕ) :
    (bifsOpendirpath path stop : KM cfg _) = opendirpathBy bifsOpendir path stop := by
  rw [bifsOpendirpath, opendirpathBy, opendirLoop_eq]
  refine congrArg _ (funext fun o => ?_)
  cases o <;> rfl

/-- `bifs_open` is the instance at `bifs_opendir` and `bifs_openfile`. -/
theorem bifsOpen_eq (path : List UInt8) :
    (bifsOpen path : KM cfg _) = openBy bifsOpendir bifsOpenfile path := by
  rw [bifsOpen, openBy]
  refine ite_congr rfl (fun _ => rfl) fun _ => ?_
  generalize lastSlash path (path.length + 1) 0 0 = l
  obtain ⟨last, zeroPos⟩ := l
  dsimp only
  refine congrArg₂ (· >>= ·) (bifsOpendirpath_eq path last) (funext fun o => ?_)
  cases o with
  | none => rfl
  | some dir =>
    refine congrArg (bifsOpenfile dir path (last + 1) zeroPos >>= ·) (funext fun o => ?_)
    cases o <;> rfl

/-! ## The lookups of a path -/

section

variable {opendir : Lookup cfg (Fin bifsMaxDirs)} {openfile : Lookup cfg (Fin bifsMaxFiles)}

/-- The components without the last one, if it is empty. -/
def trimEmpty : List (List UInt8) → List (List UInt8)
  | [] => []
  | [c] => if c = [] then [] else [c]
  | c :: c' :: cs => c :: trimEmpty (c' :: cs)

theorem trimEmpty_of_ne_nil (h : ∀ c ∈ cs, c ≠ []) : trimEmpty cs = cs := by
  induction cs with
  | nil => rfl
  | cons c cs ih =>
    cases cs with
    | nil => rw [trimEmpty, if_neg (h c List.mem_cons_self)]
    | cons c' cs => rw [trimEmpty, ih fun x hx => h x (List.mem_cons_of_mem c hx)]

theorem trimEmpty_snoc (cs : List (List UInt8)) : trimEmpty (cs ++ [[]]) = cs := by
  induction cs with
  | nil => rfl
  | cons c cs ih =>
    cases cs with
    | nil => rfl
    | cons c' cs => exact congrArg (c :: ·) ih

/-- The rest of the loop of `bifs_opendirpath`, from the slash before a component
    on. It is by induction on the components left. -/
theorem opendirLoopBy_components {rest : List UInt8} (hrest : rest = [] ∨ charAt rest 0 = slash)
    (hcs : ∀ c' ∈ c :: cs, slash ∉ c') {turns : ℕ} (hturns : cs.length ≤ turns)
    (dir : Fin bifsMaxDirs)
    (hpath : path = pathOf done ++ pathOf (c :: cs) ++ rest) {stop : ℕ}
    (hstop : stop = (pathOf done).length + (pathOf (c :: cs)).length) :
    (opendirLoopBy opendir path stop turns dir (pathOf done).length ((pathOf done).length + 1 + c.length) >>=
      opendirTailBy opendir path stop) = descendBy opendir path dir (pathOf done).length
        (trimEmpty (c :: cs)) := by
  induction cs generalizing done c turns dir with
  | nil =>
    -- The last component: the loop ends, and the lookup is the one after it.
    have hc : slash ∉ c := hcs c List.mem_cons_self
    have hpos : (pathOf done).length + 1 + c.length = stop := by
      rw [hstop, pathOf_cons, pathOf_nil, List.append_nil, List.length_cons]
      omega
    have hloop : opendirLoopBy opendir path stop turns dir (pathOf done).length
        ((pathOf done).length + 1 + c.length) =
        pure (some (dir, (pathOf done).length, (pathOf done).length + 1 + c.length)) := by
      cases turns with
      | zero => rfl
      | succ turns =>
        rw [opendirLoopBy, if_neg]
        omega
    rw [hloop, pure_bind, opendirTailBy, trimEmpty]
    by_cases hnil : c = []
    · subst hnil
      have hslash : charAt path ((pathOf done).length + 1 + ([] : List UInt8).length - 1) = slash :=
        charAt_slash hpath
      rw [if_neg fun h => h.1 hslash, if_pos rfl, descendBy]
    · have hchar : charAt path ((pathOf done).length + 1 + c.length - 1) ≠ slash := by
        have h := charAt_component (a := pathOf done ++ [slash]) (pathOf [] ++ rest) hnil hc
        rwa [← split_component hpath, List.length_append, List.length_singleton] at h
      rw [if_pos ⟨hchar, Nat.le_of_eq hpos⟩, if_neg hnil, descendBy]
      funext k
      cases h : opendir dir path ((pathOf done).length + 1) ((pathOf done).length + 1 + c.length) k with
      | ok o k' =>
        rw [bind_ok h]
        cases o <;> rfl
      | error e k' => rw [bind_error h]
  | cons c' cs ih =>
    have hpath' : path = pathOf (done ++ [c]) ++ pathOf (c' :: cs) ++ rest := by
      rw [hpath, pathOf_append, pathOf_cons, show pathOf [c] = slash :: (c ++ []) from rfl]
      simp
    have hlen : (pathOf (done ++ [c])).length = (pathOf done).length + 1 + c.length := length_pathOf_snoc done c
    have hchar : charAt path ((pathOf done).length + 1 + c.length) ≠ 0 := by
      rw [← hlen, charAt_slash hpath']
      exact slash_ne_zero
    have hlt : (pathOf done).length + 1 + c.length < stop := by
      rw [hstop, pathOf_cons, pathOf_cons, List.length_cons, List.length_append, List.length_cons]
      omega
    have hnext : nextSlash path ((pathOf done).length + 1 + c.length + 1) =
        (pathOf done).length + 1 + c.length + 1 + c'.length := by
      rw [← hlen]
      exact nextSlash_pathOf (hcs c' (by simp)) hrest hpath'
    cases turns with
    | zero => exact absurd hturns (by simp)
    | succ turns =>
      rw [opendirLoopBy, if_pos ⟨hchar, hlt⟩, trimEmpty, descendBy, hnext, bind_assoc]
      refine congrArg _ (funext fun o => ?_)
      cases o with
      | none => rw [pure_bind, opendirTailBy]
      | some d =>
        dsimp only
        rw [← hlen]
        refine ih (fun x hx => hcs x (List.mem_cons_of_mem c hx)) ?_ d hpath' ?_
        · exact Nat.le_of_succ_le_succ hturns
        · rw [hstop, hlen, pathOf_cons, List.length_cons, List.length_append]
          omega

/-- `bifs_opendirpath` looks the components up one after the other, whatever
    comes after them in the path. -/
theorem opendirpathBy_pathOf {rest : List UInt8} (hrest : rest = [] ∨ charAt rest 0 = slash) (hne : cs ≠ [])
    (hcs : ∀ c ∈ cs, slash ∉ c) :
    opendirpathBy opendir (pathOf cs ++ rest) (pathOf cs).length =
      descendBy opendir (pathOf cs ++ rest) bifsRoot 0 (trimEmpty cs) := by
  cases cs with
  | nil => contradiction
  | cons c cs =>
    have hpath : pathOf (c :: cs) ++ rest = pathOf [] ++ pathOf (c :: cs) ++ rest := by
      rw [pathOf_nil, List.nil_append]
    have hnext := nextSlash_pathOf (hcs c List.mem_cons_self) hrest hpath
    rw [pathOf_nil, List.length_nil, Nat.zero_add] at hnext
    have hturns : cs.length ≤ (pathOf (c :: cs) ++ rest).length := by
      have := length_le_pathOf (c :: cs)
      rw [List.length_append]
      rw [List.length_cons] at this
      omega
    have hstop : (pathOf (c :: cs)).length = (pathOf []).length + (pathOf (c :: cs)).length := by
      rw [pathOf_nil, List.length_nil, Nat.zero_add]
    have h : ∀ dir : Fin bifsMaxDirs, opendirLoopBy opendir _ _ _ _ _ _ >>= _ = _ := fun dir =>
      opendirLoopBy_components hrest hcs hturns dir hpath hstop
    rw [pathOf_nil, List.length_nil, Nat.zero_add] at h
    rw [opendirpathBy, hnext, h]

/-- Nothing is looked up before the first slash. -/
theorem opendirpathBy_root (path : List UInt8) : opendirpathBy opendir path 0 = pure (some bifsRoot) := by
  have hpos : 0 < nextSlash path 1 := by
    rw [nextSlash]
    omega
  have hloop : opendirLoopBy opendir path 0 path.length bifsRoot 0 (nextSlash path 1) =
      pure (some (bifsRoot, 0, nextSlash path 1)) := by
    cases path.length with
    | zero => rfl
    | succ turns => rw [opendirLoopBy, if_neg fun h => absurd h.2 (Nat.not_lt_zero _)]
  rw [opendirpathBy, hloop, pure_bind, opendirTailBy, if_neg fun h => absurd h.2 (Nat.not_le_of_lt hpos)]

/-- The last slash of a path, and its end. -/
theorem lastSlash_components (hcs : ∀ c' ∈ c :: cs, slash ∉ c') {turns : ℕ}
    (hturns : cs.length + 1 ≤ turns)
    (last : ℕ) (hpath : path = pathOf done ++ pathOf (c :: cs)) :
    lastSlash path turns last (pathOf done).length =
      ((pathOf (done ++ (c :: cs).dropLast)).length, path.length) := by
  induction cs generalizing done c turns last with
  | nil =>
    have hpath' : path = pathOf done ++ pathOf [c] ++ [] := by rw [hpath, List.append_nil]
    have hnext := nextSlash_pathOf (hcs c List.mem_cons_self) (.inl rfl) hpath'
    have hlen : (pathOf done).length + 1 + c.length = path.length := by
      rw [hpath, List.length_append, pathOf_cons, pathOf_nil, List.append_nil, List.length_cons]
      omega
    have hend : charAt path path.length = 0 := by
      rw [charAt, List.getD_eq_getElem?_getD, List.getElem?_eq_none (Nat.le_refl _), Option.getD_none]
    cases turns with
    | zero => exact absurd hturns (by simp)
    | succ turns =>
      rw [lastSlash, if_pos (charAt_slash hpath' ▸ slash_ne_zero), hnext, hlen]
      cases turns with
      | zero => simp [lastSlash]
      | succ turns => rw [lastSlash, if_neg (not_not.2 hend), List.dropLast_singleton, List.append_nil]
  | cons c' cs ih =>
    have hpath' : path = pathOf done ++ pathOf (c :: c' :: cs) ++ [] := by rw [hpath, List.append_nil]
    have hnext := nextSlash_pathOf (hcs c List.mem_cons_self) (.inl rfl) hpath'
    have hsplit : path = pathOf (done ++ [c]) ++ pathOf (c' :: cs) := by
      rw [hpath, pathOf_append, pathOf_cons, show pathOf [c] = slash :: (c ++ []) from rfl]
      simp
    cases turns with
    | zero => exact absurd hturns (by simp)
    | succ turns =>
      rw [lastSlash, if_pos (charAt_slash hpath' ▸ slash_ne_zero), hnext, ← length_pathOf_snoc,
        ih (fun x hx => hcs x (List.mem_cons_of_mem c hx)) (Nat.le_of_succ_le_succ hturns) _ hsplit,
        List.dropLast_cons_of_ne_nil (List.cons_ne_nil c' cs), List.append_assoc, List.singleton_append]

/-- The directories of the path of a file. -/
theorem opendirpathBy_dirs (hcs : ∀ c' ∈ cs, slash ∉ c') (c : List UInt8) :
    opendirpathBy opendir (pathOf (cs ++ [c])) (pathOf cs).length =
      descendBy opendir (pathOf (cs ++ [c])) bifsRoot 0 (trimEmpty cs) := by
  by_cases hnil : cs = []
  · subst hnil
    exact opendirpathBy_root _
  · rw [pathOf_append]
    exact opendirpathBy_pathOf (.inr rfl) hnil hcs

/-- `bifs_open` looks up the directories on the way, and then the file. -/
theorem openBy_pathOf (hcs : ∀ c' ∈ cs ++ [c], slash ∉ c') :
    openBy opendir openfile (pathOf (cs ++ [c])) =
      openFrom (descendBy opendir (pathOf (cs ++ [c])) bifsRoot 0 (trimEmpty cs)) fun dir =>
        openfile dir (pathOf (cs ++ [c])) ((pathOf cs).length + 1) ((pathOf cs).length + 1 + c.length) := by
  have hlen : (pathOf (cs ++ [c])).length = (pathOf cs).length + 1 + c.length := length_pathOf_snoc cs c
  have hlast : lastSlash (pathOf (cs ++ [c])) ((pathOf (cs ++ [c])).length + 1) 0 0 =
      ((pathOf cs).length, (pathOf (cs ++ [c])).length) := by
    obtain ⟨c₀, cs', hcons⟩ :=
      List.exists_cons_of_ne_nil (List.append_ne_nil_of_right_ne_nil cs (List.cons_ne_nil c []))
    have hturns : cs'.length + 1 ≤ (pathOf (cs ++ [c])).length + 1 := by
      have := length_le_pathOf (cs ++ [c])
      rw [hcons, List.length_cons] at this
      rw [hcons]
      omega
    have hpath₀ : pathOf (cs ++ [c]) = pathOf [] ++ pathOf (c₀ :: cs') := by
      rw [hcons, pathOf_nil, List.nil_append]
    have h := lastSlash_components (hcons ▸ hcs) hturns 0 hpath₀
    rw [List.nil_append, ← hcons, List.dropLast_concat] at h
    exact h
  have hslash : charAt (pathOf (cs ++ [c])) 0 = slash := by
    cases cs <;> rfl
  rw [openBy, if_neg (not_not.2 hslash), hlast, ← hlen]
  dsimp only
  rw [opendirpathBy_dirs (fun c' h => hcs c' (List.mem_append_left _ h))]

end

end HobbyOs
