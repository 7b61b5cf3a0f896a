import HobbyOs.Fdt

/-!
# The boot arguments of a device tree

A device tree is written as a list of tokens: its nodes in the order of the
document, each with its properties and nodes between its begin and its end.

* `parseLoop_tokens`: over the tokens of a tree, `fdt_parse` copies the first
  property `bootargs` that comes after the begin of a node `chosen`, at whatever
  depth and in whatever node;
* `bootargs_right_iff`: that is as it should if and only if the property, if there is
  one, says the same as that of `/chosen`.
-/

namespace HobbyOs.Fdt

/-! ## Device trees -/

/-- A name. -/
abbrev Name : Type := {chars : List UInt8 // 0 ∉ chars}

/-- A property: its name, where that is among the strings, and its value. -/
structure Property where
  name : Name
  nameOffset : ℕ
  value : List UInt8
  nameOffset_lt : nameOffset < 2 ^ 32
  length_lt : value.length < 2 ^ 32

/-- What is left of a node: properties, nodes and `FDT_NOP`s, up to its end. -/
inductive Items
  | endNode
  | nop (rest : Items)
  | prop (p : Property) (rest : Items)
  | node (name : Name) (items rest : Items)

/-- A device tree: the root, and the number of `FDT_NOP`s behind it. -/
structure Tree where
  name : Name
  items : Items
  nops : ℕ

/-- The first property `bootargs` of a node itself. -/
def Items.bootargs : Items → Option (List UInt8)
  | .endNode => none
  | .nop rest | .node _ _ rest => rest.bootargs
  | .prop p rest => if p.name.1 = propBootargs then some p.value else rest.bootargs

/-- The first node `chosen` in a node. -/
def Items.chosen : Items → Option Items
  | .endNode => none
  | .nop rest | .prop _ rest => rest.chosen
  | .node name items rest => if name.1 = nodeChosen then some items else rest.chosen

/-- The property `bootargs` of `/chosen`. -/
def Tree.bootargs (t : Tree) : Option (List UInt8) := t.items.chosen.bind Items.bootargs

/-! ### Tokens -/

/-- The tokens of the structure block. -/
inductive Token
  | beginNode (name : Name)
  | endNode
  | prop (p : Property)
  | nop

def Items.tokens : Items → List Token
  | .endNode => [.endNode]
  | .nop rest => .nop :: rest.tokens
  | .prop p rest => .prop p :: rest.tokens
  | .node name items rest => .beginNode name :: (items.tokens ++ rest.tokens)

def Tree.tokens (t : Tree) : List Token :=
  .beginNode t.name :: (t.items.tokens ++ List.replicate t.nops Token.nop)

/-- Zeros up to a multiple of four. -/
def padded (l : List UInt8) : List UInt8 := l ++ List.replicate ((l.length + 3) / 4 * 4 - l.length) 0

def Token.bytes : Token → List UInt8
  | .beginNode name => wordBytes fdtBeginNode ++ padded (name.1 ++ [0])
  | .endNode => wordBytes fdtEndNode
  | .prop p => wordBytes fdtProp ++ (wordBytes (BitVec.ofNat 32 p.value.length) ++
      (wordBytes (BitVec.ofNat 32 p.nameOffset) ++ padded p.value))
  | .nop => wordBytes fdtNop

/-- The structure block, up to `FDT_END`. -/
def block (ts : List Token) : List UInt8 := ts.flatMap Token.bytes ++ wordBytes fdtEnd

/-- The name of a property is among the strings. -/
def Token.Named (w : ℕ) (strings : ℕ → UInt8) : Token → Prop
  | .prop p => Stored strings p.nameOffset (p.name.1 ++ [0]) ∧ p.nameOffset + p.name.1.length < 2 ^ w
  | _ => True

instance (w : ℕ) (strings : ℕ → UInt8) (t : Token) : Decidable (t.Named w strings) := by
  cases t <;> unfold Token.Named <;> infer_instance

/-- The tokens are at `tree`, and their names among the strings. -/
structure Flattened (i : Input) (tree : ℕ) (ts : List Token) : Prop where
  aligned : tree % 4 = 0
  stored : Stored i.mem tree (block ts)
  fits : tree + (block ts).length ≤ 2 ^ i.width
  named : ∀ t ∈ ts, t.Named i.width i.strings

/-- The value of a property `bootargs`. -/
def Token.bootargs? : Token → Option (List UInt8)
  | .prop p => if p.name.1 = propBootargs then some p.value else none
  | _ => none

/-- The begin of a node `chosen`. -/
def Token.isChosen : Token → Bool
  | .beginNode name => name.1 = nodeChosen
  | _ => false

/-- The first property `bootargs` behind the begin of the first node `chosen`, in the order of the
    document. -/
def firstBehind (ts : List Token) : Option (List UInt8) :=
  (ts.dropWhile fun t => !t.isChosen).findSome? Token.bootargs?

/-- What is copied of a value. -/
def text (value : List UInt8) : List UInt8 := (value.takeWhile (· ≠ 0)).take 127

/-! ## The parser at a token -/

/-- What `bootargs` is after the tokens, where a node `chosen` may have been found. -/
def scan (found : Bool) : List Token → Option (List UInt8)
  | [] => none
  | t :: ts =>
    match if found then t.bootargs? else none with
    | some value => some value
    | none => scan (found || t.isChosen) ts

theorem scan_true (ts : List Token) : scan true ts = ts.findSome? Token.bootargs? := by
  induction ts with
  | nil => rfl
  | cons t ts ih =>
    rw [scan, List.findSome?_cons, if_pos rfl]
    cases t.bootargs? with
    | some value => rfl
    | none => exact ih

theorem scan_false (ts : List Token) : scan false ts = firstBehind ts := by
  induction ts with
  | nil => rfl
  | cons t ts ih =>
    rw [scan, firstBehind]
    cases hchosen : t.isChosen with
    | false =>
      rw [List.dropWhile_cons_of_pos (by simp [hchosen])]
      exact ih
    | true =>
      rw [List.dropWhile_cons_of_neg (by simp [hchosen]), List.findSome?_cons]
      have hnone : t.bootargs? = none := by
        cases t with
        | beginNode name => rfl
        | endNode | prop | nop => cases hchosen
      rw [hnone]
      exact scan_true ts

/-! ### Where things are -/

@[simp] theorem length_padded (l : List UInt8) : (padded l).length = (l.length + 3) / 4 * 4 := by
  rw [padded, List.length_append, List.length_replicate]
  omega

/-- Every token starts with a zero byte, and has whole words. -/
theorem Token.exists_bytes (t : Token) : ∃ l, t.bytes = 0 :: l ∧ (t.bytes.length) % 4 = 0 := by
  cases t with
  | endNode | nop => exact ⟨_, rfl, rfl⟩
  | beginNode name =>
    refine ⟨_, rfl, ?_⟩
    rw [Token.bytes, List.length_append, length_wordBytes, length_padded]
    omega
  | prop p =>
    refine ⟨_, rfl, ?_⟩
    simp only [Token.bytes, List.length_append, length_wordBytes, length_padded]
    omega

theorem exists_block (ts : List Token) : ∃ l, block ts = 0 :: l := by
  cases ts with
  | nil => exact ⟨_, rfl⟩
  | cons t ts =>
    obtain ⟨l, hl, -⟩ := t.exists_bytes
    refine ⟨l ++ block ts, ?_⟩
    rw [block, List.flatMap_cons, List.append_assoc, hl]
    rfl

theorem length_block (ts : List Token) : 4 ≤ (block ts).length := by
  rw [block, List.length_append, length_wordBytes]
  omega

/-- A value is followed by a zero: it is padded with zeros, and so begins what is behind it. -/
theorem exists_padded (l rest : List UInt8) : ∃ rest', padded l ++ 0 :: rest = l ++ [0] ++ rest' := by
  rw [padded]
  cases (l.length + 3) / 4 * 4 - l.length with
  | zero => exact ⟨rest, by simp⟩
  | succ k => exact ⟨List.replicate k 0 ++ 0 :: rest, by simp [List.replicate_succ]⟩

variable {i : Input} {a : ℕ} {found : Bool} {rest : List UInt8}

/-- What the copy of a value leaves. -/
def Input.leaving (i : Input) (value : List UInt8) : List UInt8 :=
  if i.hasBootargs then text value ++ [0] ++ i.bootargs.drop ((text value).length + 1) else i.bootargs

theorem copied_stored {value : List UInt8} (h : Stored i.mem a (value ++ [0]))
    (ha : a + value.length < 2 ^ i.width) :
    i.copied a = i.leaving value := by
  have hchars : charsAt i.width i.mem 127 a = text value := charsAt_stored h ha
  have hcopy : strncpy (text value) 128 = text value ++ [0] := by
    rw [strncpy, text, List.take_take]
    rfl
  rw [Input.copied, Input.leaving, hchars]
  dsimp only
  rw [hcopy, List.length_append, List.length_singleton]

/-- The node's name is compared with the whole of `chosen`. -/
theorem turn_beginNode (name : Name) (h : Stored i.mem a (Token.bytes (.beginNode name) ++ 0 :: rest))
    (ha : a % 4 = 0) (hfits : a + (Token.bytes (.beginNode name)).length + 4 ≤ 2 ^ i.width) :
    turn i ⟨a, found⟩ =
      some (.runs
        ⟨a + (Token.bytes (.beginNode name)).length, found || Token.isChosen (.beginNode name)⟩) := by
  have hlen : (Token.bytes (.beginNode name)).length = 4 + (name.1.length + 4) / 4 * 4 := by
    rw [Token.bytes, List.length_append, length_wordBytes, length_padded,
      List.length_append, List.length_singleton]
  rw [hlen] at hfits ⊢
  have hname : Stored i.mem (a + 4) (name.1 ++ [0]) := by
    rw [Token.bytes, padded] at h
    exact h.left.right.left
  have hskip : skipName i.width i.mem (2 ^ i.width) (a + 4) = some (a + 4 + name.1.length + 1) :=
    skipName_stored name.2 hname (by omega) (by omega)
  have hchars : charsAt i.width i.mem 7 (a + 4) = name.1.take 7 := by
    rw [charsAt_stored hname (by omega), takeWhile_name name.2]
  have halign : upalign4 i.width (a + 4 + name.1.length + 1) = a + (4 + (name.1.length + 4) / 4 * 4) := by
    rw [upalign4_of_lt (by omega)]
    omega
  have hnext : ptr i.width (a + 4) = a + 4 := ptr_of_lt (by omega)
  have hchosen : strncmp (name.1.take 7) nodeChosen 7 = 0 ↔ name.1 = nodeChosen :=
    strncmp_take_eq_zero_iff (by decide) (by decide)
  rw [turn_begin (readWord_stored h.left.left)]
  simp only [hnext, hskip, Option.map_some, hchars, halign, hchosen]
  rfl

/-- The property's name is compared with the whole of `bootargs`, if a node `chosen` has been found. -/
theorem turn_property (p : Property) (h : Stored i.mem a (Token.bytes (.prop p) ++ 0 :: rest)) (ha : a % 4 = 0)
    (hfits : a + (Token.bytes (.prop p)).length + 4 ≤ 2 ^ i.width)
    (hnamed : Token.Named i.width i.strings (.prop p)) :
    turn i ⟨a, found⟩ = some (if found = true ∧ p.name.1 = propBootargs then .returned (i.leaving p.value)
      else .runs ⟨a + (Token.bytes (.prop p)).length, found⟩) := by
  have hlen : (Token.bytes (.prop p)).length = 12 + (p.value.length + 3) / 4 * 4 := by
    simp only [Token.bytes, List.length_append, length_wordBytes, length_padded]
    omega
  rw [hlen] at hfits ⊢
  have hlength : readWord i.mem (a + 4) = BitVec.ofNat 32 p.value.length := readWord_stored h.left.right.left
  have hoffset : readWord i.mem (a + 4 + 4) = BitVec.ofNat 32 p.nameOffset :=
    readWord_stored h.left.right.right.left
  have hvalue : Stored i.mem (a + 4 + 4 + 4) (p.value ++ [0]) := by
    obtain ⟨rest', hrest⟩ := exists_padded p.value rest
    have hstored : Stored i.mem (a + 4 + 4 + 4) (padded p.value ++ 0 :: rest) := by
      simp only [Token.bytes, List.append_assoc] at h
      exact h.right.right.right
    rw [hrest] at hstored
    exact hstored.left
  have hnext : ptr i.width (a + 4) = a + 4 := ptr_of_lt (by omega)
  have hnext' : ptr i.width (a + 4 + 4) = a + 4 + 4 := ptr_of_lt (by omega)
  have hvalueAt : valueAt i a = a + 4 + 4 + 4 := by
    rw [valueAt, hnext, hnext', ptr_of_lt (by omega)]
  have hlengthAt : lengthAt i a = p.value.length := by
    rw [lengthAt, hnext, hlength, BitVec.toNat_ofNat, Nat.mod_eq_of_lt p.length_lt]
  -- The name is in the strings block, at the offset that the property gives.
  have hname : IsBootargs i a ↔ p.name.1 = propBootargs := by
    rw [IsBootargs, hnext, hnext', hoffset, BitVec.toNat_ofNat, Nat.mod_eq_of_lt p.nameOffset_lt,
      charsAt_stored hnamed.1 hnamed.2, takeWhile_name p.name.2]
    exact strncmp_take_eq_zero_iff (by decide) (by decide)
  have halign : upalign4 i.width (ptr i.width (a + 4 + 4 + 4 + p.value.length)) =
      a + (12 + (p.value.length + 3) / 4 * 4) := by
    rw [ptr_of_lt (by omega), upalign4_of_lt (by omega)]
    omega
  rw [turn_prop (readWord_stored h.left.left)]
  simp only [hname, hvalueAt, hlengthAt, halign, copied_stored hvalue (show _ < 2 ^ i.width by omega)]

/-- A turn at a token: it returns at a property `bootargs`, or moves on to the next token. -/
theorem turn_token (t : Token) (h : Stored i.mem a (t.bytes ++ 0 :: rest)) (ha : a % 4 = 0)
    (hfits : a + t.bytes.length + 4 ≤ 2 ^ i.width) (hnamed : t.Named i.width i.strings) :
    turn i ⟨a, found⟩ = some (match if found then t.bootargs? else none with
      | some value => .returned (i.leaving value)
      | none => .runs ⟨a + t.bytes.length, found || t.isChosen⟩) := by
  have hskip (hlen : t.bytes.length = 4) : ptr i.width (a + 4) = a + t.bytes.length := by
    rw [hlen]
    exact ptr_of_lt (by omega)
  cases t with
  | beginNode name =>
    rw [turn_beginNode name h ha hfits]
    cases found <;> rfl
  | endNode =>
    rw [turn_skip (.inr (readWord_stored h.left)), hskip rfl]
    cases found <;> rfl
  | nop =>
    rw [turn_skip (.inl (readWord_stored h.left)), hskip rfl]
    cases found <;> rfl
  | prop p =>
    rw [turn_property p h ha hfits hnamed]
    cases found with
    | false => rfl
    | true =>
      by_cases hname : p.name.1 = propBootargs
      · simp [Token.bootargs?, hname]
      · simp [Token.bootargs?, hname, Token.isChosen]

/-! ## The loops -/

theorem block_cons (t : Token) (ts : List Token) : block (t :: ts) = t.bytes ++ block ts := by
  rw [block, List.flatMap_cons, List.append_assoc]
  rfl

theorem Flattened.tail {t : Token} {ts : List Token} (h : Flattened i a (t :: ts)) :
    Flattened i (a + t.bytes.length) ts := by
  obtain ⟨ha, hstored, hfits, hnamed⟩ := h
  rw [block_cons] at hstored hfits
  obtain ⟨-, -, hwords⟩ := t.exists_bytes
  rw [List.length_append] at hfits
  exact ⟨by omega, hstored.right, by omega, fun u hu => hnamed u (List.mem_cons_of_mem _ hu)⟩

/-- The tokens of the block are parsed one after the other. -/
theorem parseLoop_tokens {turns : ℕ} {ts : List Token} (h : Flattened i a ts) (hturns : ts.length < turns) :
    parseLoop i turns ⟨a, found⟩ = some (match scan found ts with
      | some value => i.leaving value
      | none => i.bootargs) := by
  induction ts generalizing a found turns with
  | nil =>
    obtain ⟨turns, rfl⟩ := Nat.exists_eq_add_one_of_ne_zero (Nat.ne_zero_of_lt hturns)
    rw [parseLoop, turn_end (readWord_stored h.stored)]
    rfl
  | cons t ts ih =>
    obtain ⟨turns, rfl⟩ := Nat.exists_eq_add_one_of_ne_zero (Nat.ne_zero_of_lt hturns)
    have hstored := h.stored
    have hfits := h.fits
    have hlen := length_block ts
    obtain ⟨rest, hrest⟩ := exists_block ts
    rw [block_cons, List.length_append] at hfits
    rw [block_cons, hrest] at hstored
    rw [parseLoop, turn_token t hstored h.aligned (by omega) (h.named t List.mem_cons_self), scan]
    cases (if found then t.bootargs? else none) with
    | some value => rfl
    | none => exact ih h.tail (Nat.lt_of_succ_lt_succ hturns)

/-- What is found in a node is behind its begin. -/
theorem Items.exists_of_bootargs {items : Items} {value : List UInt8} (h : items.bootargs = some value) :
    ∃ t ∈ items.tokens, t.bootargs? = some value := by
  induction items with
  | endNode => cases h
  | nop rest ih =>
    obtain ⟨t, ht, hvalue⟩ := ih h
    exact ⟨t, List.mem_cons_of_mem _ ht, hvalue⟩
  | node name items rest _ ih =>
    obtain ⟨t, ht, hvalue⟩ := ih h
    exact ⟨t, List.mem_cons_of_mem _ (List.mem_append_right _ ht), hvalue⟩
  | prop p rest ih =>
    rw [Items.bootargs] at h
    by_cases hname : p.name.1 = propBootargs
    · rw [if_pos hname] at h
      exact ⟨.prop p, List.mem_cons_self, (if_pos hname).trans h⟩
    · rw [if_neg hname] at h
      obtain ⟨t, ht, hvalue⟩ := ih h
      exact ⟨t, List.mem_cons_of_mem _ ht, hvalue⟩

theorem Items.exists_of_chosen {items chosen : Items} (h : items.chosen = some chosen) :
    ∃ (before : List Token) (t : Token) (after : List Token), items.tokens = before ++
      t :: (chosen.tokens ++ after) ∧ t.isChosen = true := by
  induction items with
  | endNode => cases h
  | nop rest ih =>
    obtain ⟨before, t, after, htokens, ht⟩ := ih h
    exact ⟨.nop :: before, t, after, by rw [Items.tokens, htokens]; rfl, ht⟩
  | prop p rest ih =>
    obtain ⟨before, t, after, htokens, ht⟩ := ih h
    exact ⟨.prop p :: before, t, after, by rw [Items.tokens, htokens]; rfl, ht⟩
  | node name items rest _ ih =>
    rw [Items.chosen] at h
    by_cases hname : name.1 = nodeChosen
    · rw [if_pos hname] at h
      obtain rfl := Option.some.inj h
      exact ⟨[], .beginNode name, rest.tokens, rfl, decide_eq_true hname⟩
    · rw [if_neg hname] at h
      obtain ⟨before, t, after, htokens, ht⟩ := ih h
      refine ⟨.beginNode name :: (items.tokens ++ before), t, after, ?_, ht⟩
      rw [Items.tokens, htokens]
      simp

theorem firstBehind_append_ne_none {before after : List Token} {t u : Token}
    (ht : t.isChosen = true) (hu : u ∈ after)
    (hvalue : u.bootargs? ≠ none) : firstBehind (before ++ t :: after) ≠ none := by
  have hfind {ts : List Token} (h : u ∈ ts) : ts.findSome? Token.bootargs? ≠ none := fun hnone =>
    hvalue (List.findSome?_eq_none_iff.1 hnone u h)
  induction before with
  | nil =>
    rw [firstBehind, List.nil_append, List.dropWhile_cons_of_neg (by simp [ht])]
    exact hfind (List.mem_cons_of_mem _ hu)
  | cons b before ih =>
    rw [firstBehind, List.cons_append]
    cases hb : b.isChosen with
    | true =>
      rw [List.dropWhile_cons_of_neg (by simp [hb])]
      exact hfind (by simp [hu])
    | false =>
      rw [List.dropWhile_cons_of_pos (by simp [hb])]
      exact ih

theorem Tree.firstBehind_ne_none {t : Tree} (h : t.bootargs ≠ none) : firstBehind t.tokens ≠ none := by
  obtain ⟨value, hvalue⟩ := Option.ne_none_iff_exists'.1 h
  obtain ⟨chosen, hchosen, hbootargs⟩ := Option.bind_eq_some_iff.1 hvalue
  obtain ⟨before, u, after, htokens, hu⟩ := Items.exists_of_chosen hchosen
  obtain ⟨p, hp, hpvalue⟩ := Items.exists_of_bootargs hbootargs
  have htree : t.tokens = (.beginNode t.name :: before : List Token) ++
      u :: (chosen.tokens ++ after ++ List.replicate t.nops Token.nop) := by
    rw [Tree.tokens, htokens]
    simp
  rw [htree]
  have hmem : p ∈ chosen.tokens ++ after ++ List.replicate t.nops Token.nop :=
    List.mem_append_left _ (List.mem_append_left _ hp)
  exact firstBehind_append_ne_none hu hmem (by simp [hpvalue])

theorem takeWhile_leaving (value rest : List UInt8) :
    (text value ++ [0] ++ rest).takeWhile (· ≠ 0) = text value := by
  have hne : ∀ c ∈ text value, decide (c ≠ 0) = true := fun c hc =>
    List.mem_takeWhile_imp (p := fun c => decide (c ≠ 0)) (List.mem_of_mem_take hc)
  rw [List.append_assoc, List.takeWhile_append_of_pos hne, List.singleton_append,
    List.takeWhile_cons_of_neg (by decide), List.append_nil]

/-- What should be left: the text of the property of `/chosen`, or what was there. -/
def Right (i : Input) (t : Tree) (r : List UInt8) : Prop :=
  match t.bootargs with
  | some value => r.takeWhile (· ≠ 0) = text value
  | none => r = i.bootargs

/-- It is left if and only if the first property `bootargs` behind the begin of the first node `chosen`,
    if there is one, says the same as that of `/chosen`, or, without that, as what was there. -/
theorem bootargs_right_iff {tree : ℕ} (t : Tree) (h : Flattened i tree t.tokens)
    (hbuild : i.hasBootargs = true) :
    (∃ turns r, fdtParse i turns tree = some r ∧ Right i t r) ↔
      ∀ value, firstBehind t.tokens = some value → match t.bootargs with
        | some value' => text value = text value'
        | none => text value ++ [0] <+: i.bootargs := by
  have htoken : readWord i.mem tree = fdtBeginNode := by
    have hstored := h.stored
    rw [Tree.tokens, block_cons] at hstored
    exact readWord_stored hstored.left.left
  -- The parser reads the tokens in order, and takes the first `bootargs` behind a node
  -- `chosen`.
  have hrun : fdtParse i (t.tokens.length + 1) tree = some (match firstBehind t.tokens with
      | some value => i.leaving value
      | none => i.bootargs) := by
    rw [fdtParse, if_neg (not_not.2 htoken), parseLoop_tokens h (Nat.lt_succ_self _), scan_false]
  have hright : (∃ turns r, fdtParse i turns tree = some r ∧ Right i t r) ↔
      Right i t (match firstBehind t.tokens with
      | some value => i.leaving value
      | none => i.bootargs) := by
    refine ⟨?_, fun hr => ⟨_, _, hrun, hr⟩⟩
    rintro ⟨turns, r, hr, hright⟩
    rwa [fdtParse_unique hr hrun] at hright
  rw [hright, Right]
  cases hfirst : firstBehind t.tokens with
  | none =>
    have hnone : t.bootargs = none := by
      by_contra hne
      exact t.firstBehind_ne_none hne hfirst
    rw [hnone]
    exact iff_of_true rfl nofun
  | some value =>
    simp only [Option.some.injEq, forall_eq', Input.leaving, if_pos hbuild]
    cases t.bootargs with
    | some value' => rw [takeWhile_leaving]
    | none =>
      have hlen : (text value ++ [0]).length = (text value).length + 1 := List.length_append
      dsimp only
      rw [← hlen]
      exact List.prefix_iff_eq_append.symm

/-! ### Two trees -/

def memoryName : Name := ⟨ascii "memory", by decide⟩
def chosenName : Name := ⟨nodeChosen, by decide⟩
def rootName : Name := ⟨[], by decide⟩

/-- A property `bootargs`, whose name is the first of the strings. -/
def dryRun : Property := ⟨⟨propBootargs, by decide⟩, 0, ascii "dry-run" ++ [0], by decide, by decide⟩

/-- `/memory`, and `/chosen` with `bootargs`. -/
def chosenLast : Tree :=
  ⟨rootName, .node memoryName .endNode (.node chosenName (.prop dryRun .endNode) .endNode), 1⟩

/-- `/chosen`, and `/memory` with `bootargs`. -/
def chosenFirst : Tree :=
  ⟨rootName, .node chosenName .endNode (.node memoryName (.prop dryRun .endNode) .endNode), 1⟩

/-- The tree in memory. -/
def inMemory (t : Tree) : Input where
  width := 32
  hasBootargs := true
  mem a := (block t.tokens).getD a 0
  strings a := propBootargs.getD a 0
  bootargs := List.replicate 128 0
  length_bootargs := rfl

theorem inMemory_flattened {t : Tree} (hfits : (block t.tokens).length ≤ 2 ^ 32)
    (hnamed : ∀ u ∈ t.tokens, u.Named 32 (inMemory t).strings) : Flattened (inMemory t) 0 t.tokens where
  aligned := rfl
  stored n _ := by
    rw [Nat.zero_add]
    rfl
  fits := by rwa [Nat.zero_add]
  named := hnamed

theorem chosenLast_right :
    ∃ turns r, fdtParse (inMemory chosenLast) turns 0 = some r ∧
    Right (inMemory chosenLast) chosenLast r := by
  have hflat : Flattened (inMemory chosenLast) 0 chosenLast.tokens := inMemory_flattened (by decide) (by decide)
  refine (bootargs_right_iff chosenLast hflat rfl).2 fun value hvalue => ?_
  have hfirst : firstBehind chosenLast.tokens = chosenLast.bootargs := by decide
  rw [← hfirst, hvalue]

/-- The property of `/memory` is taken for that of `/chosen`, which has none. -/
theorem chosenFirst_not_right :
    Flattened (inMemory chosenFirst) 0 chosenFirst.tokens ∧
      ¬∃ turns r, fdtParse (inMemory chosenFirst) turns 0 = some r ∧
      Right (inMemory chosenFirst) chosenFirst r := by
  refine ⟨inMemory_flattened (by decide) (by decide), ?_⟩
  rintro ⟨turns, r, hr, hright⟩
  have hrun : fdtParse (inMemory chosenFirst) 10 0 = some (ascii "dry-run" ++ List.replicate 121 0) := by
    decide +kernel
  have hsame : r = List.replicate 128 0 := hright
  rw [fdtParse_unique hr hrun] at hsame
  exact absurd hsame (by decide)

end HobbyOs.Fdt
