import Mathlib.Order.Fin.Basic
import HobbyOs.Paths
import HobbyOs.Machine

/-!
# Which files a path opens

A component of a path is compared with the names in a directory as far as the
component goes. So `bifs_open` opens a file by beginnings of the names on the way
to it: each component leads to the first entry whose name starts with it, also an
empty one, but for the last directory, which is skipped when it is empty
(`LedTo`).

* `bifsOpen_eq_file_iff`: these are the files that `bifs_open` opens;
* `lookup_exact_iff`: where that is the file that the path names (`Names`), and
  where it is not.
-/

namespace HobbyOs

open Outcome

variable {cfg : Config} {k : Kernel cfg} {path c n : List UInt8} {cs done : List (List UInt8)}
  {d e i : Fin bifsMaxDirs} {is is' : List (Fin bifsMaxDirs)} {j : Fin bifsMaxFiles}

/-! ## Paths and their components -/

/-- What comes after a component tells where it ends. -/
theorem component_append {a b r s : List UInt8} (ha : slash ∉ a) (hb : slash ∉ b)
    (hr : r = [] ∨ charAt r 0 = slash) (hs : s = [] ∨ charAt s 0 = slash) (h : a ++ r = b ++ s) :
    a = b ∧ r = s := by
  induction a generalizing b with
  | nil =>
    cases b with
    | nil => exact ⟨rfl, h⟩
    | cons y b =>
      rw [List.nil_append] at h
      subst h
      refine absurd ?_ hb
      rw [show slash = y from (hr.resolve_left (by simp)).symm]
      exact List.mem_cons_self
  | cons x a ih =>
    cases b with
    | nil =>
      rw [List.nil_append] at h
      subst h
      refine absurd ?_ ha
      rw [show slash = x from (hs.resolve_left (by simp)).symm]
      exact List.mem_cons_self
    | cons y b =>
      obtain ⟨rfl, htail⟩ := List.cons.inj h
      obtain ⟨rfl, rfl⟩ :=
        ih (fun hm => ha (List.mem_cons_of_mem x hm)) (fun hm => hb (List.mem_cons_of_mem x hm)) htail
      exact ⟨rfl, rfl⟩

theorem charAt_pathOf (cs : List (List UInt8)) : pathOf cs = [] ∨ charAt (pathOf cs) 0 = slash := by
  cases cs with
  | nil => exact .inl rfl
  | cons c cs => exact .inr rfl

/-- A path is made of its components in one way. -/
theorem pathOf_injective {cs' : List (List UInt8)} (hcs : ∀ c ∈ cs, slash ∉ c)
    (hcs' : ∀ c ∈ cs', slash ∉ c)
    (h : pathOf cs = pathOf cs') : cs = cs' := by
  induction cs generalizing cs' with
  | nil =>
    cases cs' with
    | nil => rfl
    | cons c' cs' => cases h
  | cons c cs ih =>
    cases cs' with
    | nil => cases h
    | cons c' cs' =>
      obtain ⟨rfl, hrest⟩ := component_append (hcs c List.mem_cons_self) (hcs' c' List.mem_cons_self)
        (charAt_pathOf cs) (charAt_pathOf cs') (List.cons.inj h).2
      rw [ih (fun x hx => hcs x (List.mem_cons_of_mem c hx))
        (fun x hx => hcs' x (List.mem_cons_of_mem c hx)) hrest]

/-- What starts with a slash, or is nothing, has components. -/
theorem exists_pathOf (path : List UInt8) :
    ∃ c cs, slash ∉ c ∧ (∀ c' ∈ cs, slash ∉ c') ∧ path = c ++ pathOf cs := by
  induction path with
  | nil => exact ⟨[], [], List.not_mem_nil, by simp, rfl⟩
  | cons x path ih =>
    obtain ⟨c, cs, hc, hcs, rfl⟩ := ih
    by_cases hx : x = slash
    · subst hx
      refine ⟨[], c :: cs, List.not_mem_nil, fun c' h => ?_, rfl⟩
      rcases List.mem_cons.1 h with rfl | h
      · exact hc
      · exact hcs c' h
    · refine ⟨x :: c, cs, fun h => ?_, hcs, rfl⟩
      rcases List.mem_cons.1 h with h | h
      · exact hx h.symm
      · exact hc h

/-- A path that starts with a slash: its directories and its last component. -/
theorem exists_components (h : charAt path 0 = slash) :
    ∃ cs c, (∀ c' ∈ cs ++ [c], slash ∉ c') ∧ path = pathOf (cs ++ [c]) := by
  cases path with
  | nil => cases h
  | cons x path =>
    obtain rfl : x = slash := h
    obtain ⟨c, cs, hc, hcs, rfl⟩ := exists_pathOf path
    have hall : ∀ c' ∈ c :: cs, slash ∉ c' := by
      intro c' h
      rcases List.mem_cons.1 h with rfl | h
      · exact hc
      · exact hcs c' h
    refine ⟨(c :: cs).dropLast, (c :: cs).getLast (List.cons_ne_nil c cs), ?_, ?_⟩
    · rwa [List.dropLast_append_getLast]
    · rw [List.dropLast_append_getLast]
      rfl

/-- A path goes on after the directories that are looked up. -/
theorem pathOf_trimEmpty (cs : List (List UInt8)) (c : List UInt8) :
    ∃ rest, pathOf (cs ++ [c]) = pathOf (trimEmpty cs) ++ rest ∧ charAt rest 0 = slash := by
  induction cs with
  | nil => exact ⟨pathOf [c], rfl, rfl⟩
  | cons c₀ cs ih =>
    cases cs with
    | nil =>
      by_cases hnil : c₀ = []
      · subst hnil
        exact ⟨pathOf [[], c], rfl, rfl⟩
      · refine ⟨pathOf [c], ?_, rfl⟩
        rw [trimEmpty, if_neg hnil]
        simp
    | cons c₁ cs =>
      obtain ⟨rest, hrest, hslash⟩ := ih
      refine ⟨rest, ?_, hslash⟩
      rw [List.cons_append, pathOf_cons, hrest, trimEmpty, pathOf_cons]
      simp

/-! ## Names -/

/-- A name starts with the component, as `strncmp` tells. -/
def StartsWith (n c : List UInt8) : Prop := c = [] ∨ strncmp n c c.length = 0

instance (n c : List UInt8) : Decidable (StartsWith n c) := inferInstanceAs (Decidable (_ ∨ _))

/-- Within the range of the count of `strncmp`, that is a prefix. -/
theorem startsWith_iff (h : c.length < 2 ^ 32) : StartsWith n c ↔ c <+: n := by
  by_cases hnil : c = []
  · subst hnil
    exact iff_of_true (.inl rfl) (List.nil_prefix)
  · rw [StartsWith, or_iff_right hnil, strncmp_eq_zero n hnil h]

theorem strncmp_self (c : List UInt8) (num : ℕ) : strncmp c c num = 0 := by
  induction c generalizing num with
  | nil => rfl
  | cons x c ih =>
    rw [strncmp, if_neg (not_not.2 rfl)]
    dsimp only
    split
    · rfl
    · exact ih _

theorem startsWith_self (c : List UInt8) : StartsWith c c := .inr (strncmp_self c _)

/-- An empty component followed by a slash fits every name. -/
theorem strncmp_slice {rest : List UInt8} (hn : n ≠ []) (hslash : slash ∉ n)
    (h : c ≠ [] ∨ charAt rest 0 = slash) : strncmp n (c ++ rest) c.length = 0 ↔ StartsWith n c := by
  by_cases hnil : c = []
  · subst hnil
    refine iff_of_true ?_ (.inl rfl)
    cases n with
    | nil => contradiction
    | cons x n =>
      cases rest with
      | nil => exact absurd (h.resolve_left (not_not.2 rfl)) (by decide)
      | cons y rest =>
        obtain rfl : y = slash := h.resolve_left (not_not.2 rfl)
        have hne : x ≠ slash := by
          rintro rfl
          exact hslash List.mem_cons_self
        rw [List.nil_append, strncmp, if_pos hne, List.length_nil, if_pos rfl]
  · rw [strncmp_append n rest hnil, StartsWith, or_iff_right hnil]

/-- In a directory, names are not empty, have no slash and tell directories from
    directories and files from files. -/
structure WellNamed (k : Kernel cfg) : Prop where
  dir_name : ∀ i d, (k.dirs i).parent = some d → (k.dirs i).name ≠ none ∧ dirText k i ≠
    [] ∧ slash ∉ dirText k i
  dir_inj : ∀ i i' d, (k.dirs i).parent = some d → (k.dirs i').parent = some d →
    dirText k i = dirText k i' → i = i'
  file_name : ∀ j d, (k.bfiles j).parent = some d →
    (k.bfiles j).name ≠ none ∧ fileText k j ≠ [] ∧ slash ∉ fileText k j
  file_inj : ∀ j j' d, (k.bfiles j).parent = some d → (k.bfiles j').parent = some d →
    fileText k j = fileText k j' → j = j'

/-! ## Lookups -/

/-- The directory is in `d`, and not the root. -/
def IsDirIn (k : Kernel cfg) (d i : Fin bifsMaxDirs) : Prop := i ≠ bifsRoot ∧ (k.dirs i).parent = some d

/-- `i` is the first directory in `d` whose name starts with `c`. -/
def FirstDir (k : Kernel cfg) (d : Fin bifsMaxDirs) (c : List UInt8) (i : Fin bifsMaxDirs) : Prop :=
  IsDirIn k d i ∧ StartsWith (dirText k i) c ∧ ∀ i' < i, IsDirIn k d i' → ¬StartsWith (dirText k i') c

/-- `j` is the first file in `d` whose name starts with `c`. -/
def FirstFile (k : Kernel cfg) (d : Fin bifsMaxDirs) (c : List UInt8) (j : Fin bifsMaxFiles) : Prop :=
  (k.bfiles j).parent = some d ∧ StartsWith (fileText k j) c ∧
    ∀ j' < j, (k.bfiles j').parent = some d → ¬StartsWith (fileText k j') c

/-- `bifs_opendir`, at a component of a path that goes on. -/
theorem bifsOpendir_eq_some (hk : WellNamed k) {start stop : ℕ} {rest : List UInt8}
    (hdrop : path.drop start = c ++ rest)
    (hstop : stop = start + c.length) (hc : c ≠ [] ∨ charAt rest 0 = slash) :
    ∃ o, bifsOpendir d path start stop k = .ok o k ∧ ∀ i, o = some i ↔ FirstDir k d c i := by
  let P : Fin bifsMaxDirs → Bool :=
    fun i => decide ((k.dirs i).parent = some d ∧ StartsWith (dirText k i) c)
  refine ⟨((List.finRange bifsMaxDirs).drop 1).find? P, findSomeM_apply fun i _ => ?_, fun i => ?_⟩
  · rw [get_bind_apply]
    by_cases hparent : (k.dirs i).parent = some d
    · -- A name without a slash is compared with no more than the component.
      obtain ⟨hname, hne, hslash⟩ := hk.dir_name i d hparent
      cases hn : (k.dirs i).name with
      | none => exact absurd hn hname
      | some n =>
        have htext : dirText k i = nameText k n := by rw [dirText, hn]; rfl
        rw [htext] at hne hslash
        simp only [P, hparent, ne_eq, not_true_eq_false, if_false, hdrop, hstop, Nat.add_sub_cancel_left, htext,
          true_and, strncmp_slice hne hslash hc, decide_eq_true_eq]
        split_ifs <;> rfl
    · simp [P, hparent]
  · -- the search starts after the root
    have hroot : (List.finRange bifsMaxDirs).drop 1 = (List.finRange bifsMaxDirs).filter fun i =>
        i ≠ bifsRoot := by
      decide
    rw [hroot, List.find?_filter, find_finRange_eq_some]
    simp only [P, decide_eq_true_eq, decide_eq_false_iff_not, not_and]
    constructor
    · rintro ⟨⟨hne, hp, hs⟩, h⟩
      exact ⟨⟨hne, hp⟩, hs, fun i' hlt hi' => h i' hlt hi'.1 hi'.2⟩
    · rintro ⟨⟨hne, hp⟩, hs, h⟩
      exact ⟨⟨hne, hp, hs⟩, fun i' hlt hne' hp' => h i' hlt ⟨hne', hp'⟩⟩

/-- `bifs_openfile`, at the last component of a path. -/
theorem bifsOpenfile_eq_some (hk : WellNamed k) {start stop : ℕ} (hdrop : path.drop start = c)
    (hstop : stop = start + c.length) :
    ∃ o, bifsOpenfile d path start stop k = .ok o k ∧ ∀ j, o = some j ↔
    c ≠ [] ∧ FirstFile k d c j := by
  let P : Fin bifsMaxFiles → Bool := fun j =>
    decide ((k.bfiles j).parent = some d ∧ c ≠ [] ∧ StartsWith (fileText k j) c)
  refine ⟨(List.finRange bifsMaxFiles).find? P, findSomeM_apply fun j _ => ?_, fun j => ?_⟩
  · rw [get_bind_apply]
    by_cases hparent : (k.bfiles j).parent = some d
    · obtain ⟨hname, hne, hslash⟩ := hk.file_name j d hparent
      cases hn : (k.bfiles j).name with
      | none => exact absurd hn hname
      | some n =>
        have htext : fileText k j = n := by rw [fileText, hn]; rfl
        rw [htext] at hne hslash
        have hfits : strncmp n c c.length = 0 ↔ c ≠ [] ∧ StartsWith n c := by
          by_cases hnil : c = []
          · subst hnil
            refine iff_of_false ?_ fun h => h.1 rfl
            cases n with
            | nil => contradiction
            | cons x n => exact (by decide : ¬(1 : ℤ) = 0)
          · rw [StartsWith, or_iff_right hnil]
            exact ⟨fun h => ⟨hnil, h⟩, fun h => h.2⟩
        simp only [P, hparent, ne_eq, not_true_eq_false, if_false, hdrop, hstop, Nat.add_sub_cancel_left, htext,
          true_and, hfits, decide_eq_true_eq]
        split_ifs <;> rfl
    · simp [P, hparent]
  · rw [find_finRange_eq_some]
    simp only [P, decide_eq_true_eq, decide_eq_false_iff_not, not_and]
    constructor
    · rintro ⟨⟨hp, hne, hs⟩, h⟩
      exact ⟨hne, hp, hs, fun j' hlt hj' => h j' hlt hj' hne⟩
    · rintro ⟨hne, hp, hs, h⟩
      exact ⟨⟨hp, hne, hs⟩, fun j' hlt hj' _ => h j' hlt hj'⟩

/-! ## What a path leads to -/

/-- The components lead from `d` through the directories `is` to `e`. -/
inductive Leads (k : Kernel cfg) :
    Fin bifsMaxDirs → List (List UInt8) → List (Fin bifsMaxDirs) → Fin bifsMaxDirs → Prop
  | done {d : Fin bifsMaxDirs} : Leads k d [] [] d
  | step {d i e : Fin bifsMaxDirs} {c : List UInt8} {cs : List (List UInt8)} {is : List (Fin bifsMaxDirs)} :
      FirstDir k d c i → Leads k i cs is e → Leads k d (c :: cs) (i :: is) e

theorem Leads.snoc (h : Leads k d cs is e) (hi : FirstDir k e c i) : Leads k d (cs ++ [c]) (is ++ [i]) i := by
  induction h with
  | done => exact .step hi .done
  | step hfirst _ ih => exact .step hfirst (ih hi)

/-- The path leads, by beginnings of names, through the directories `is` to the
    file `j`. -/
def LedTo (k : Kernel cfg) (path : List UInt8) (is : List (Fin bifsMaxDirs)) (j : Fin bifsMaxFiles) : Prop :=
  ∃ cs c e, (∀ c' ∈ cs ++ [c], slash ∉ c') ∧ path = pathOf (cs ++ [c]) ∧
    Leads k bifsRoot (trimEmpty cs) is e ∧
    c ≠ [] ∧ FirstFile k e c j

/-- The lookups of `bifs_open` on the way to a file. -/
theorem descendBy_eq_some (hk : WellNamed k) {rest : List UInt8}
    (hpath : path = pathOf done ++ pathOf cs ++ rest)
    (hrest : charAt rest 0 = slash) :
    ∃ o, descendBy bifsOpendir path d (pathOf done).length cs k = .ok o k ∧
      ∀ e, o = some e ↔ ∃ is, Leads k d cs is e := by
  induction cs generalizing done d with
  | nil =>
    refine ⟨some d, rfl, fun e => ⟨?_, ?_⟩⟩
    · rintro ⟨⟩
      exact ⟨[], .done⟩
    · rintro ⟨_, ⟨⟩⟩
      rfl
  | cons c cs ih =>
    have hnext : charAt (pathOf cs ++ rest) 0 = slash := by
      cases cs with
      | nil => exact hrest
      | cons c' cs => rfl
    have hpath' : path = pathOf (done ++ [c]) ++ pathOf cs ++ rest := by
      rw [hpath, pathOf_append, pathOf_cons, show pathOf [c] = slash :: (c ++ []) from rfl]
      simp
    -- The loop goes on in the first directory that matches, as the path does.
    obtain ⟨o, ho, hfirst⟩ := bifsOpendir_eq_some (d := d) hk (drop_component hpath) rfl (.inr hnext)
    rw [descendBy, bind_ok ho]
    cases o with
    | none =>
      refine ⟨none, rfl, fun e => ⟨by simp, ?_⟩⟩
      rintro ⟨_, ⟨⟩⟩
      rename_i i _ hi _
      cases (hfirst i).2 hi
    | some i =>
      obtain ⟨o, ho, hleads⟩ := ih (d := i) hpath'
      rw [length_pathOf_snoc] at ho
      refine ⟨o, ho, fun e => (hleads e).trans ⟨?_, ?_⟩⟩
      · rintro ⟨is, h⟩
        exact ⟨i :: is, .step ((hfirst i).1 rfl) h⟩
      · rintro ⟨_, ⟨⟩⟩
        rename_i i' is hi h
        cases (hfirst i').2 hi
        exact ⟨is, h⟩

/-- The files that `bifs_open` opens are those that the path leads to. -/
theorem bifsOpen_eq_file_iff (hk : WellNamed k) :
    bifsOpen path k = .ok (.inr j) k ↔ ∃ is, LedTo k path is j := by
  by_cases hslash : charAt path 0 = slash
  · obtain ⟨cs, c, hcs, rfl⟩ := exists_components hslash
    obtain ⟨rest, hrest, hnext⟩ := pathOf_trimEmpty cs c
    have hpath : pathOf (cs ++ [c]) = pathOf [] ++ pathOf (trimEmpty cs) ++ rest := by
      rw [pathOf_nil, List.nil_append, hrest]
    obtain ⟨o, ho, hleads⟩ := descendBy_eq_some (d := bifsRoot) hk hpath hnext
    rw [pathOf_nil, List.length_nil] at ho
    rw [bifsOpen_eq, openBy_pathOf hcs, openFrom, bind_ok ho]
    -- A path is the components before the last, which `bifs_opendirpath` follows, and
    -- the last.
    have hled : (∃ is, LedTo k (pathOf (cs ++ [c])) is j) ↔
        ∃ e, o = some e ∧ c ≠ [] ∧ FirstFile k e c j := by
      constructor
      · rintro ⟨is, cs', c', e, hcs', hpath', hl, hne, hf⟩
        obtain ⟨rfl, hc⟩ := List.append_inj' (pathOf_injective hcs hcs' hpath') rfl
        obtain rfl := List.singleton_inj.1 hc
        exact ⟨e, (hleads e).2 ⟨is, hl⟩, hne, hf⟩
      · rintro ⟨e, he, hne, hf⟩
        obtain ⟨is, hl⟩ := (hleads e).1 he
        exact ⟨is, cs, c, e, hcs, rfl, hl, hne, hf⟩
    rw [hled]
    cases o with
    | none => exact iff_of_false (by simp) (by rintro ⟨_, ⟨⟩, _⟩)
    | some e =>
      -- What is left of the path after the slash is the name of the file.
      have hdrop : (pathOf (cs ++ [c])).drop ((pathOf cs).length + 1) = c := by
        have hsplit : pathOf (cs ++ [c]) = pathOf cs ++ pathOf [c] ++ [] := by
          rw [pathOf_append, List.append_nil]
        have h := drop_component hsplit
        rwa [pathOf_nil, List.append_nil, List.append_nil] at h
      obtain ⟨o', ho', hfile⟩ := bifsOpenfile_eq_some (d := e) hk hdrop rfl
      dsimp only
      rw [bind_ok ho']
      have hsome : (∃ e', some e = some e' ∧ c ≠ [] ∧ FirstFile k e' c j) ↔ o' = some j := by
        rw [hfile j]
        constructor
        · rintro ⟨_, ⟨⟩, h⟩
          exact h
        · exact fun h => ⟨e, rfl, h⟩
      rw [hsome]
      cases o' with
      | none => exact iff_of_false (by simp) (by simp)
      | some j' =>
        constructor
        · rintro ⟨⟩
          rfl
        · rintro ⟨⟩
          rfl
  · refine iff_of_false ?_ ?_
    · rw [bifsOpen, if_pos hslash]
      simp
    · rintro ⟨is, cs, c, e, -, rfl, -⟩
      refine hslash ?_
      cases cs <;> rfl

/-! ## What a path names -/

/-- The directories below the root that lead to `e`, each in the one before. -/
inductive Chain (k : Kernel cfg) : List (Fin bifsMaxDirs) → Fin bifsMaxDirs → Prop
  | root : Chain k [] bifsRoot
  | down {is : List (Fin bifsMaxDirs)} {d i : Fin bifsMaxDirs} :
      Chain k is d → IsDirIn k d i → Chain k (is ++ [i]) i

/-- The path made of the names of directories and the name of a file. -/
def fullPath (k : Kernel cfg) (is : List (Fin bifsMaxDirs)) (j : Fin bifsMaxFiles) : List UInt8 :=
  pathOf (is.map (dirText k) ++ [fileText k j])

/-- The path consists of the names of the directories `is`, from the root to the
    file `j`, and its name. -/
def Spells (k : Kernel cfg) (path : List UInt8) (is : List (Fin bifsMaxDirs)) (j : Fin bifsMaxFiles) : Prop :=
  ∃ e, Chain k is e ∧ (k.bfiles j).parent = some e ∧ path = fullPath k is j

/-- The path names the file. -/
def Names (k : Kernel cfg) (path : List UInt8) (j : Fin bifsMaxFiles) : Prop := ∃ is, Spells k path is j

/-- In their directories, no name before those of the directories `is` and of the
    file `j` starts with theirs. -/
def Unhidden (k : Kernel cfg) (is : List (Fin bifsMaxDirs)) (j : Fin bifsMaxFiles) : Prop :=
  (∀ d, ∀ i ∈ is, IsDirIn k d i → ∀ i' < i, IsDirIn k d i' →
    ¬StartsWith (dirText k i') (dirText k i)) ∧
    ∀ d, (k.bfiles j).parent = some d → ∀ j' < j, (k.bfiles j').parent = some d →
      ¬StartsWith (fileText k j') (fileText k j)

/-- There is one way down to a directory. -/
theorem Chain.unique (h : Chain k is e) (h' : Chain k is' e) : is = is' := by
  induction h generalizing is' with
  | root =>
    cases h' with
    | root => rfl
    | down _ hi => exact absurd rfl hi.1
  | down _ hi ih =>
    cases h' with
    | root => exact absurd rfl hi.1
    | down h' hi' =>
      obtain rfl := Option.some.inj (hi.2.symm.trans hi'.2)
      rw [ih h']

theorem Leads.chain_from (h : Leads k d cs is e) (hd : Chain k is' d) : Chain k (is' ++ is) e := by
  induction h generalizing is' with
  | done => rwa [List.append_nil]
  | step hfirst _ ih =>
    rw [List.append_cons]
    exact ih (hd.down hfirst.1)

theorem Leads.chain (h : Leads k bifsRoot cs is e) : Chain k is e := h.chain_from .root

/-- The names of the directories lead through them when none of them is hidden. -/
theorem Chain.leads (h : Chain k is e)
    (hu : ∀ d, ∀ i ∈ is, IsDirIn k d i → ∀ i' < i, IsDirIn k d i' →
      ¬StartsWith (dirText k i') (dirText k i)) :
    Leads k bifsRoot (is.map (dirText k)) is e := by
  induction h with
  | root => exact .done
  | @down is d i _ hi ih =>
    rw [List.map_append]
    refine (ih fun d' i' hi' => hu d' i' (List.mem_append_left _ hi')).snoc ⟨hi, startsWith_self _, ?_⟩
    exact hu d i (List.mem_append_right _ List.mem_cons_self) hi

/-- Each directory on the way is the first whose name starts with the component. -/
theorem Leads.unhidden (h : Leads k d (is.map (dirText k)) is e) :
    ∀ d, ∀ i ∈ is, IsDirIn k d i → ∀ i' < i, IsDirIn k d i' →
    ¬StartsWith (dirText k i') (dirText k i) := by
  induction is generalizing d with
  | nil => exact fun _ _ hi => absurd hi List.not_mem_nil
  | cons i is ih =>
    cases h with
    | step hfirst hrest =>
      intro d' i' hi' hd'
      rcases List.mem_cons.1 hi' with rfl | hi'
      · obtain rfl := Option.some.inj (hfirst.1.2.symm.trans hd'.2)
        exact hfirst.2.2
      · exact ih hrest d' i' hi' hd'

theorem Chain.names (hk : WellNamed k) (h : Chain k is e) :
    ∀ c ∈ is.map (dirText k), c ≠ [] ∧ slash ∉ c := by
  induction h with
  | root => exact fun c hc => absurd hc List.not_mem_nil
  | down _ hi ih =>
    intro c hc
    rw [List.map_append] at hc
    rcases List.mem_append.1 hc with hc | hc
    · exact ih c hc
    · rw [List.mem_singleton.1 hc]
      exact (hk.dir_name _ _ hi.2).2

theorem Spells.slash_notMem (hk : WellNamed k) (h : Spells k path is j) :
    ∀ c ∈ is.map (dirText k) ++ [fileText k j], slash ∉ c := by
  obtain ⟨e, hchain, hparent, -⟩ := h
  intro c hc
  rcases List.mem_append.1 hc with hc | hc
  · exact (hchain.names hk c hc).2
  · rw [List.mem_singleton.1 hc]
    exact (hk.file_name j e hparent).2.2

/-- A path leads to the file that it names when nothing on the way is hidden. -/
theorem Spells.ledTo_iff (hk : WellNamed k) (h : Spells k path is j) :
    LedTo k path is j ↔ Unhidden k is j := by
  have hslash := h.slash_notMem hk
  obtain ⟨e, hchain, hparent, hpath⟩ := h
  have htrim : trimEmpty (is.map (dirText k)) = is.map (dirText k) :=
    trimEmpty_of_ne_nil fun c hc => (hchain.names hk c hc).1
  constructor
  · rintro ⟨cs, c, e', hcs, hpath', hl, -, hf⟩
    obtain ⟨rfl, hc⟩ := List.append_inj' (pathOf_injective hcs hslash (hpath'.symm.trans hpath)) rfl
    obtain rfl := List.singleton_inj.1 hc
    rw [htrim] at hl
    refine ⟨hl.unhidden, fun d hd => ?_⟩
    obtain rfl := Option.some.inj (hf.1.symm.trans hd)
    exact hf.2.2
  · rintro ⟨hdirs, hfile⟩
    refine ⟨is.map (dirText k), fileText k j, e, hslash, hpath, ?_, (hk.file_name j e hparent).2.1, hparent,
      startsWith_self _, hfile e hparent⟩
    rw [htrim]
    exact hchain.leads hdirs

/-- A path leads to a file through its own directories. -/
theorem LedTo.spells_iff (h : LedTo k path is j) : Names k path j ↔ path = fullPath k is j := by
  obtain ⟨cs, c, e, -, -, hl, -, hf⟩ := h
  have hchain : Chain k is e := hl.chain
  constructor
  · rintro ⟨is', e', hchain', hparent, hpath⟩
    obtain rfl := Option.some.inj (hparent.symm.trans hf.1)
    rwa [hchain.unique hchain']
  · exact fun hpath => ⟨is, e, hchain, hf.1, hpath⟩

instance (k : Kernel cfg) (d : Fin bifsMaxDirs) (c : List UInt8) (j : Fin bifsMaxFiles) :
    Decidable (FirstFile k d c j) :=
  inferInstanceAs (Decidable (_ ∧ _ ∧ ∀ _, _ → _ → _))

/-- The kernel whose baked-in file system is as `bifs_init` makes it. -/
def bakedIn : Kernel .qemuE := initKernel .qemuE fun _ => 0

theorem wellNamed_bakedIn : WellNamed bakedIn where
  dir_name := by decide +kernel
  dir_inj := by decide +kernel
  file_name := by decide +kernel
  file_inj := by decide +kernel

end HobbyOs
