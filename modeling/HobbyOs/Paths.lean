import Mathlib.Tactic.SplitIfs
import HobbyOs.Splitting

/-!
# Paths of the baked-in file system

What `bifs_opendir` and `bifs_openfile` decide about a component of a path, and
what a path then amounts to.

* `bifsOpendir_apply`, `bifsOpenfile_apply`: a lookup finds the first entry of
  the directory whose name starts with the component;
* `decides_bifsOpendir`, `decides_bifsOpenfile`: it depends on the component only,
  wherever that is in the path;
* `path_splitting`: the lookups for a path, for any two functions of which this
  holds. `bifsOpendirpath_pathOf` and `bifsOpen_pathOf` are the instances at the
  functions of `bakedinfs.c` (`descend`).
-/

namespace HobbyOs

open Outcome

variable {cfg : Config} {k : Kernel cfg} {path c : List UInt8} {cs done : List (List UInt8)}

/-- A name that a path can have: not empty, and without a slash. (The length is
    one that a C `int` can have.) -/
structure IsComponent (c : List UInt8) : Prop where
  ne_nil : c ≠ []
  slash : slash ∉ c
  length_lt : c.length < 2 ^ 32

/-! ## Names -/

/-- Only as many characters are compared as the count tells. -/
theorem strncmp_take (a : List UInt8) {c : List UInt8} (rest : List UInt8) {num : ℕ} (hpos : 0 < num)
    (hle : num ≤ c.length) (hlt : num < 2 ^ 32) : strncmp a (c ++ rest) num = strncmp a c num := by
  induction c generalizing a num with
  | nil =>
    rw [List.length_nil] at hle
    omega
  | cons y c ih =>
    have hcount : u32 ((num : ℤ) - 1) = num - 1 := by
      rw [u32]
      omega
    cases a with
    | nil => rfl
    | cons x a =>
      rw [List.cons_append, strncmp, strncmp, hcount]
      by_cases hone : num - 1 = 0
      · simp only [hone, if_true]
      · rw [List.length_cons] at hle
        simp only [ih a (by omega : 0 < num - 1) (by omega) (by omega)]

/-- A component is compared up to its end. -/
theorem strncmp_append (a : List UInt8) {c : List UInt8} (rest : List UInt8) (hne : c ≠ []) :
    strncmp a (c ++ rest) c.length = strncmp a c c.length := by
  cases c with
  | nil => contradiction
  | cons y c =>
    cases a with
    | nil => rfl
    | cons x a =>
      rw [List.cons_append, strncmp, strncmp]
      have hle : u32 (((y :: c).length : ℤ) - 1) ≤ c.length := by
        rw [List.length_cons, u32]
        omega
      have hlt : u32 (((y :: c).length : ℤ) - 1) < 2 ^ 32 := by
        rw [u32]
        omega
      by_cases hzero : u32 (((y :: c).length : ℤ) - 1) = 0
      · simp only [hzero, if_true]
      · simp only [strncmp_take a rest (Nat.pos_of_ne_zero hzero) hle hlt]

/-- The name starts with the component. -/
theorem strncmp_eq_zero (a : List UInt8) {c : List UInt8} (hne : c ≠ []) (hc : c.length < 2 ^ 32) :
    strncmp a c c.length = 0 ↔ c <+: a := by
  induction c generalizing a with
  | nil => contradiction
  | cons y c ih =>
    have hcount : u32 (((y :: c).length : ℤ) - 1) = c.length := by
      rw [List.length_cons] at hc ⊢
      rw [u32]
      omega
    cases a with
    | nil => simp [strncmp]
    | cons x a =>
      rw [strncmp, hcount]
      by_cases hxy : x = y
      · subst hxy
        rw [if_neg (not_not.2 rfl)]
        dsimp only
        by_cases hnil : c = []
        · subst hnil
          simp
        · rw [if_neg (by simpa using hnil), ih a hnil (by rw [List.length_cons] at hc; omega)]
          simp
      · have hval : ¬(x.toNat : ℤ) - y.toNat = 0 := by
          intro h
          exact hxy (UInt8.toNat_inj.1 (by omega))
        simp [hxy, hval, Ne.symm hxy]

/-! ## Lookups -/

/-- The name of a directory. -/
def dirText (k : Kernel cfg) (i : Fin bifsMaxDirs) : List UInt8 := ((k.dirs i).name.map (nameText k)).getD []

/-- The name of a file. -/
def fileText (k : Kernel cfg) (j : Fin bifsMaxFiles) : List UInt8 := (k.bfiles j).name.getD []

/-- A search that each turn of tells, and that leaves the kernel alone. -/
theorem findSomeM_apply {α : Type} {l : List α} {f : α → KM cfg (Option α)} {P : α → Bool}
    (h : ∀ x ∈ l, f x k = .ok (if P x then some x else none) k) : l.findSomeM? f k = .ok (l.find? P) k := by
  induction l with
  | nil => rfl
  | cons x l ih =>
    rw [List.findSomeM?_cons, bind_ok (h x List.mem_cons_self)]
    cases hx : P x with
    | true =>
      rw [if_pos rfl, List.find?_cons_of_pos hx]
      rfl
    | false =>
      rw [if_neg (by simp), List.find?_cons_of_neg (by simp [hx])]
      exact ih fun y hy => h y (List.mem_cons_of_mem x hy)

/-- The directory finds the first one with a fitting name. -/
theorem bifsOpendir_apply {parent : Fin bifsMaxDirs} (hc : IsComponent c)
    (hnames : ∀ i, (k.dirs i).parent = some parent → (k.dirs i).name ≠ none) :
    bifsOpendir parent c 0 c.length k = .ok (((List.finRange bifsMaxDirs).drop 1).find? fun i =>
      decide ((k.dirs i).parent = some parent ∧ c <+: dirText k i)) k := by
  refine findSomeM_apply fun i _ => ?_
  rw [get_bind_apply]
  by_cases hparent : (k.dirs i).parent = some parent
  · cases hname : (k.dirs i).name with
    | none => exact absurd hname (hnames i hparent)
    | some n =>
      have htext : dirText k i = nameText k n := by rw [dirText, hname]; rfl
      simp only [hparent, ne_eq, not_true_eq_false, if_false, List.drop_zero, Nat.sub_zero, htext, true_and,
        strncmp_eq_zero _ hc.ne_nil hc.length_lt, decide_eq_true_eq]
      split_ifs <;> rfl
  · simp [hparent]

/-- The directory finds the first file with a fitting name. -/
theorem bifsOpenfile_apply {parent : Fin bifsMaxDirs} (hc : IsComponent c)
    (hnames : ∀ j, (k.bfiles j).parent = some parent → (k.bfiles j).name ≠ none) :
    bifsOpenfile parent c 0 c.length k = .ok ((List.finRange bifsMaxFiles).find? fun j =>
      decide ((k.bfiles j).parent = some parent ∧ c <+: fileText k j)) k := by
  refine findSomeM_apply fun j _ => ?_
  rw [get_bind_apply]
  by_cases hparent : (k.bfiles j).parent = some parent
  · cases hname : (k.bfiles j).name with
    | none => exact absurd hname (hnames j hparent)
    | some n =>
      have htext : fileText k j = n := by rw [fileText, hname]; rfl
      simp only [hparent, ne_eq, not_true_eq_false, if_false, List.drop_zero, Nat.sub_zero, htext, true_and,
        strncmp_eq_zero _ hc.ne_nil hc.length_lt, decide_eq_true_eq]
      split_ifs <;> rfl
  · simp [hparent]

/-- What a lookup decides depends on the component only, wherever it is in the
    path. -/
def Decides {α : Type} (look : Fin bifsMaxDirs → List UInt8 → KM cfg (Option α)) (op : Lookup cfg α) :
    Prop :=
  ∀ dir a c rest, c ≠ [] → slash ∉ c →
    op dir (a ++ c ++ rest) a.length (a.length + c.length) = look dir c

theorem decides_bifsOpendir :
    Decides (fun dir c => (bifsOpendir dir c 0 c.length : KM cfg _)) bifsOpendir := by
  intro dir a c rest hne _
  dsimp only
  rw [bifsOpendir, bifsOpendir, List.append_assoc, List.drop_left, Nat.add_sub_cancel_left, List.drop_zero,
    Nat.sub_zero]
  simp only [strncmp_append _ rest hne]

theorem decides_bifsOpenfile :
    Decides (fun dir c => (bifsOpenfile dir c 0 c.length : KM cfg _)) bifsOpenfile := by
  intro dir a c rest hne _
  dsimp only
  rw [bifsOpenfile, bifsOpenfile, List.append_assoc, List.drop_left, Nat.add_sub_cancel_left, List.drop_zero,
    Nat.sub_zero]
  simp only [strncmp_append _ rest hne]

/-- The directory that some components lead to from another one. -/
def descend (dir : Fin bifsMaxDirs) : List (List UInt8) → KM cfg (Option (Fin bifsMaxDirs))
  | [] => return some dir
  | c :: cs => do
    match ← bifsOpendir dir c 0 c.length with
    | none => return none
    | some d => descend d cs

/-! ## Paths -/

section

variable {look : Fin bifsMaxDirs → List UInt8 → KM cfg (Option (Fin bifsMaxDirs))}
  {lookFile : Fin bifsMaxDirs → List UInt8 → KM cfg (Option (Fin bifsMaxFiles))}
  {opendir : Lookup cfg (Fin bifsMaxDirs)} {openfile : Lookup cfg (Fin bifsMaxFiles)}

/-- The lookups of some components one after the other. -/
def follow (look : Fin bifsMaxDirs → List UInt8 → KM cfg (Option (Fin bifsMaxDirs))) :
    Fin bifsMaxDirs → List (List UInt8) → KM cfg (Option (Fin bifsMaxDirs))
  | dir, [] => return some dir
  | dir, c :: cs => do
    match ← look dir c with
    | none => return none
    | some d => follow look d cs

theorem descend_eq (dir : Fin bifsMaxDirs) (cs : List (List UInt8)) :
    (descend dir cs : KM cfg _) = follow (fun dir c => bifsOpendir dir c 0 c.length) dir cs := by
  induction cs generalizing dir with
  | nil => rfl
  | cons c cs ih =>
    refine congrArg _ (funext fun o => ?_)
    cases o with
    | none => rfl
    | some d => exact ih d

/-- Without empty components, the places in the path do not matter. -/
theorem descendBy_follow {rest : List UInt8} (hdir : Decides look opendir)
    (hcs : ∀ c ∈ cs, c ≠ [] ∧ slash ∉ c)
    (dir : Fin bifsMaxDirs) (hpath : path = pathOf done ++ pathOf cs ++ rest) :
    descendBy opendir path dir (pathOf done).length cs = follow look dir cs := by
  induction cs generalizing done dir with
  | nil => rfl
  | cons c cs ih =>
    obtain ⟨hne, hc⟩ := hcs c List.mem_cons_self
    have hop : opendir dir path ((pathOf done).length + 1) ((pathOf done).length + 1 + c.length) =
        look dir c := by
      have h := hdir dir (pathOf done ++ [slash]) c (pathOf cs ++ rest) hne hc
      rwa [← split_component hpath, List.length_append, List.length_singleton] at h
    have hpath' : path = pathOf (done ++ [c]) ++ pathOf cs ++ rest := by
      rw [hpath, pathOf_append, pathOf_cons, show pathOf [c] = slash :: (c ++ []) from rfl]
      simp
    rw [descendBy, follow, hop]
    refine congrArg _ (funext fun o => ?_)
    cases o with
    | none => rfl
    | some d =>
      dsimp only
      rw [← length_pathOf_snoc]
      exact ih (fun x hx => hcs x (List.mem_cons_of_mem c hx)) d hpath'

theorem descendBy_root {rest : List UInt8} (hdir : Decides look opendir)
    (hcs : ∀ c ∈ cs, c ≠ [] ∧ slash ∉ c)
    (hpath : path = pathOf cs ++ rest) : descendBy opendir path bifsRoot 0 cs = follow look bifsRoot cs := by
  have hsplit : path = pathOf [] ++ pathOf cs ++ rest := by rw [pathOf_nil, List.nil_append, hpath]
  exact descendBy_follow hdir hcs bifsRoot hsplit

theorem opendirpathBy_follow {rest : List UInt8} (hdir : Decides look opendir)
    (hrest : rest = [] ∨ charAt rest 0 = slash) (hne : cs ≠ [])
    (hcs : ∀ c ∈ cs, c ≠ [] ∧ slash ∉ c) :
    opendirpathBy opendir (pathOf cs ++ rest) (pathOf cs).length = follow look bifsRoot cs := by
  rw [opendirpathBy_pathOf hrest hne fun c h => (hcs c h).2, trimEmpty_of_ne_nil fun c h => (hcs c h).1]
  exact descendBy_root hdir hcs rfl

/-- With a slash at the end, the last lookup is made in the loop. -/
theorem opendirpathBy_slash (hdir : Decides look opendir) (hcs : ∀ c ∈ cs, c ≠ [] ∧ slash ∉ c) :
    opendirpathBy opendir (pathOf cs ++ [slash]) ((pathOf cs).length + 1) = follow look bifsRoot cs := by
  have hall : ∀ c ∈ cs ++ [[]], slash ∉ c := by
    intro c h
    rcases List.mem_append.1 h with h | h
    · exact (hcs c h).2
    · rw [List.mem_singleton.1 h]
      exact List.not_mem_nil
  have hpath : pathOf (cs ++ [[]]) = pathOf cs ++ [slash] := by rw [pathOf_append]; rfl
  have hrest : ([] : List UInt8) = [] ∨ charAt [] 0 = slash := .inl rfl
  have h : _ = descendBy opendir _ _ _ _ := opendirpathBy_pathOf hrest (by simp) hall
  rw [trimEmpty_snoc, hpath, List.append_nil, List.length_append, List.length_singleton] at h
  rw [h]
  exact descendBy_root hdir hcs rfl

theorem openBy_follow (hdir : Decides look opendir) (hfile : Decides lookFile openfile)
    (hcs : ∀ c' ∈ cs ++ [c], c' ≠ [] ∧ slash ∉ c') :
    openBy opendir openfile (pathOf (cs ++ [c])) = openFrom (follow look bifsRoot cs) fun dir =>
      lookFile dir c := by
  have hdirs : ∀ c' ∈ cs, c' ≠ [] ∧ slash ∉ c' := fun c' h => hcs c' (List.mem_append_left _ h)
  obtain ⟨hne, hc⟩ := hcs c (List.mem_append_right _ List.mem_cons_self)
  have hop : ∀ dir, openfile dir (pathOf (cs ++ [c])) ((pathOf cs).length + 1)
      ((pathOf cs).length + 1 + c.length) = lookFile dir c := by
    intro dir
    have h := hfile dir (pathOf cs ++ [slash]) c [] hne hc
    rw [List.length_append, List.length_singleton] at h
    rw [← h, pathOf_append, show pathOf [c] = slash :: (c ++ []) from rfl]
    simp
  rw [openBy_pathOf fun c' h => (hcs c' h).2, trimEmpty_of_ne_nil fun c' h => (hdirs c' h).1,
    descendBy_root hdir hdirs (pathOf_append cs [c])]
  simp only [hop]

end

/-- For a path of non-empty components, whatever the lookup of a component
    decides: `bifs_open` looks the directories up one after the other and then the
    file, until one is not found; `bifs_opendirpath` looks up all components, also
    when there is a slash after them. -/
theorem path_splitting {look : Fin bifsMaxDirs → List UInt8 → KM cfg (Option (Fin bifsMaxDirs))}
    {lookFile : Fin bifsMaxDirs → List UInt8 → KM cfg (Option (Fin bifsMaxFiles))}
    {opendir : Lookup cfg (Fin bifsMaxDirs)} {openfile : Lookup cfg (Fin bifsMaxFiles)}
    (hdir : Decides look opendir) (hfile : Decides lookFile openfile)
    (hcs : ∀ c' ∈ cs ++ [c], c' ≠ [] ∧ slash ∉ c') :
    (openBy opendir openfile (pathOf (cs ++ [c])) = openFrom (follow look bifsRoot cs) fun dir =>
      lookFile dir c) ∧
    opendirpathBy opendir (pathOf (cs ++ [c])) (pathOf (cs ++ [c])).length =
      follow look bifsRoot (cs ++ [c]) ∧
    opendirpathBy opendir (pathOf (cs ++ [c]) ++ [slash]) ((pathOf (cs ++ [c])).length + 1) =
      follow look bifsRoot (cs ++ [c]) := by
  refine ⟨openBy_follow hdir hfile hcs, ?_, opendirpathBy_slash hdir hcs⟩
  have hrest : ([] : List UInt8) = [] ∨ charAt [] 0 = slash := .inl rfl
  have h := opendirpathBy_follow hdir hrest (by simp) hcs
  rwa [List.append_nil] at h

/-- `/home/read.me`, with the functions of `bakedinfs.c`. -/
theorem home_path_splits :
    (openBy bifsOpendir bifsOpenfile (ascii "/home/read.me") : KM .qemuE _) =
      openFrom (descend bifsRoot [ascii "home"]) fun dir => bifsOpenfile dir (ascii "read.me") 0 7 := by
  have hcs : ∀ c' ∈ [ascii "home"] ++ [ascii "read.me"], c' ≠ [] ∧ slash ∉ c' := by decide
  have h : openBy (bifsOpendir : Lookup .qemuE _) _ _ = _ :=
    (path_splitting decides_bifsOpendir decides_bifsOpenfile hcs).1
  rw [← descend_eq] at h
  exact h

/-- `bifs_opendirpath` looks the components up one after the other, whatever
    comes after them in the path. -/
theorem bifsOpendirpath_pathOf {rest : List UInt8} (hrest : rest = [] ∨ charAt rest 0 = slash)
    (hne : cs ≠ [])
    (hcs : ∀ c ∈ cs, IsComponent c) :
    (bifsOpendirpath (pathOf cs ++ rest) (pathOf cs).length : KM cfg _) = descend bifsRoot cs := by
  rw [bifsOpendirpath_eq, descend_eq]
  exact opendirpathBy_follow decides_bifsOpendir hrest hne fun c h => ⟨(hcs c h).ne_nil, (hcs c h).slash⟩

/-- `bifs_open` looks up the directories on the way, and then the file. -/
theorem bifsOpen_pathOf (hcs : ∀ c' ∈ cs, IsComponent c') (hc : IsComponent c) :
    (bifsOpen (pathOf (cs ++ [c])) : KM cfg _) = do
      match ← descend bifsRoot cs with
      | none => return .inl (-ENOENT)
      | some dir =>
        match ← bifsOpenfile dir c 0 c.length with
        | none => return .inl (-ENOENT)
        | some j => return .inr j := by
  have hall : ∀ c' ∈ cs ++ [c], c' ≠ [] ∧ slash ∉ c' := by
    intro c' h
    rcases List.mem_append.1 h with h | h
    · exact ⟨(hcs c' h).ne_nil, (hcs c' h).slash⟩
    · obtain rfl := List.mem_singleton.1 h
      exact ⟨hc.ne_nil, hc.slash⟩
  rw [bifsOpen_eq, descend_eq]
  exact openBy_follow decides_bifsOpendir decides_bifsOpenfile hall

end HobbyOs
