import HobbyOs.OwnedTables

/-!
# Copying a page table

`copy_page_table` maps the user pages of a table in another one, at addresses that
it puts together from the indices of their entries. It does so in an `int`: what is
shifted out of its 32 bits is lost, and its sign is spread over the upper bits. So
an index of the root comes back as one of four (`copyVpn`), and the copy is right if
and only if the pages at other indices are such that it makes no difference
(`copyPageTable_iff`).

* `lastSome`: the last of a number of writes prevails;
* `Writes`: the entries that a computation writes in the tables of the copy, while
  it leaves those of the source alone.
-/

namespace HobbyOs

open Outcome Radix

/-! ## The last write -/

section

variable {α : Type} {f : ℕ → Option α} {n i : ℕ} {a : α}

/-- The last of the first `n` values. -/
def lastSome (f : ℕ → Option α) : ℕ → Option α
  | 0 => none
  | n + 1 => (f n).or (lastSome f n)

theorem lastSome_of_none (h : ∀ i < n, f i = none) : lastSome f n = none := by
  induction n with
  | zero => rfl
  | succ n ih => rw [lastSome, h n n.lt_succ_self, ih fun i hi => h i (Nat.lt_succ_of_lt hi), Option.none_or]

theorem lastSome_of_last (hi : i < n) (ha : f i = some a) (h : ∀ j, i < j → j < n → f j = none) :
    lastSome f n = some a := by
  induction n with
  | zero => exact absurd hi (Nat.not_lt_zero i)
  | succ n ih =>
    rw [lastSome]
    rcases Nat.lt_succ_iff_lt_or_eq.1 hi with hlt | rfl
    · rw [h n hlt n.lt_succ_self, Option.none_or]
      exact ih hlt fun j hj hjn => h j hj (Nat.lt_succ_of_lt hjn)
    · rw [ha, Option.some_or]

/-- Either there is no value, or there is a last one. -/
theorem lastSome_cases (f : ℕ → Option α) (n : ℕ) : (lastSome f n = none ∧ ∀ i < n, f i = none) ∨
    ∃ i < n, ∃ a, f i = some a ∧ lastSome f n = some a ∧ ∀ j, i < j → j < n → f j = none := by
  induction n with
  | zero => exact .inl ⟨rfl, fun i hi => absurd hi (Nat.not_lt_zero i)⟩
  | succ n ih =>
    cases hn : f n with
    | some a =>
      refine .inr ⟨n, n.lt_succ_self, a, hn, ?_, fun j hj hjn => ?_⟩
      · rw [lastSome, hn, Option.some_or]
      · exact absurd (Nat.le_of_lt_succ hjn) (Nat.not_le_of_lt hj)
    | none =>
      rw [lastSome, hn, Option.none_or]
      rcases ih with ⟨hnone, hall⟩ | ⟨i, hi, a, ha, hlast, hlater⟩
      · refine .inl ⟨hnone, fun i hi => ?_⟩
        rcases Nat.lt_succ_iff_lt_or_eq.1 hi with hlt | rfl
        · exact hall i hlt
        · exact hn
      · refine .inr ⟨i, Nat.lt_succ_of_lt hi, a, ha, hlast, fun j hj hjn => ?_⟩
        rcases Nat.lt_succ_iff_lt_or_eq.1 hjn with hlt | rfl
        · exact hlater j hj hlt
        · exact hn

/-- Only one value counts. -/
theorem lastSome_single (hi : i < n) (h : ∀ j < n, j ≠ i → f j = none) : lastSome f n = f i := by
  cases hfi : f i with
  | none =>
    refine lastSome_of_none fun j hj => ?_
    by_cases hji : j = i
    · rw [hji, hfi]
    · exact h j hj hji
  | some a => exact lastSome_of_last hi hfi fun j hj hjn => h j hjn (Nat.ne_of_gt hj)

end

variable {cfg : Config} {k k₀ k' : Kernel cfg} {dst src t u : TablePage}
  {D D' : List (Fin 512) → Option ℕ}

/-! ## The address of the copy -/

/-- The address of a page, by its indices. -/
def pageVa (vpn2 vpn1 vpn0 : ℕ) : ℕ := vpn2 * 2 ^ 30 + vpn1 * 2 ^ 21 + vpn0 * 2 ^ 12

/-- The path to the entry of a page, by its indices. -/
def path (vpn2 vpn1 vpn0 : ℕ) : List (Fin 512) := [Fin.ofNat 512 vpn0, Fin.ofNat 512 vpn1, Fin.ofNat 512 vpn2]

/-- The index of the root at which `copy_page_table` maps what is at another. -/
def copyVpn (vpn2 : ℕ) : ℕ := if vpn2 % 4 < 2 then vpn2 % 4 else 508 + vpn2 % 4

theorem copyVpn_lt (a : ℕ) : copyVpn a < 512 := by
  rw [copyVpn]
  split <;> omega

/-- The indices that are not lost. -/
theorem copyVpn_eq_self {a : ℕ} (ha : a < 512) : copyVpn a = a ↔ a ∈ [0, 1, 510, 511] := by
  simp only [copyVpn, List.mem_cons, List.not_mem_nil, or_false]
  split <;> omega

theorem copyVpn_copyVpn (a : ℕ) : copyVpn (copyVpn a) = copyVpn a := by
  unfold copyVpn
  split <;> split <;> omega

theorem copyVpn_eq_iff {a b : ℕ} : copyVpn a = copyVpn b ↔ a % 4 = b % 4 := by
  unfold copyVpn
  split <;> split <;> omega

theorem path_inj {a b c a' b' c' : ℕ} (ha : a < 512) (hb : b < 512) (hc : c < 512)
    (ha' : a' < 512) (hb' : b' < 512)
    (hc' : c' < 512) (h : path a b c = path a' b' c') : a = a' ∧ b = b' ∧ c = c' := by
  have hval : ∀ {v w : ℕ}, v < 512 → w < 512 → Fin.ofNat 512 v = Fin.ofNat 512 w → v = w := by
    intro v w hv hw heq
    have := congrArg Fin.val heq
    rwa [Fin.val_ofNat, Fin.val_ofNat, Nat.mod_eq_of_lt hv, Nat.mod_eq_of_lt hw] at this
  simp only [path, List.cons.injEq, and_true] at h
  exact ⟨hval ha ha' h.2.2, hval hb hb' h.2.1, hval hc hc' h.1⟩

theorem vpns_pageVa {a b c : ℕ} (ha : a < 512) (hb : b < 512) (hc : c < 512) :
    vpns (pageVa a b c) 3 = path a b c := by
  have h : ∀ v w : ℕ, v = w → w < 512 → ∀ hv, (⟨v, hv⟩ : Fin 512) = Fin.ofNat 512 w := by
    rintro v _ rfl hw _
    exact Fin.ext (Nat.mod_eq_of_lt hw).symm
  simp only [vpns, path, vpnIndex, List.cons.injEq, and_true]
  refine ⟨h _ _ ?_ hc _, h _ _ ?_ hb _, h _ _ ?_ ha _⟩
  all_goals
    rw [vpn, pageVa]
    omega

theorem pageVa_eq_or {a b c : ℕ} (hb : b < 512) (hc : c < 512) :
    a * 2 ^ 30 ||| b * 2 ^ 21 ||| c * 2 ^ 12 = pageVa a b c := by
  have hlow : b * 2 ^ 21 + c * 2 ^ 12 = b * 2 ^ 21 ||| c * 2 ^ 12 := by
    rw [Nat.mul_comm b, Nat.two_pow_add_eq_or_of_lt (by omega)]
  rw [Nat.or_assoc, ← hlow, Nat.mul_comm a, ← Nat.two_pow_add_eq_or_of_lt (by omega), pageVa]
  omega

/-- The address that `copy_page_table` computes is the right one but for the index
    of the root. -/
theorem vpns_copyVa (hxlen : cfg.xlen = 64) {a b c : ℕ} (hb : b < 512) (hc : c < 512) :
    vpns (copyVa cfg a b c) 3 = path (copyVpn a) b c := by
  -- The index of the root is shifted in 32 bits: two of its bits are lost, and the
  -- sign is extended.
  have hva : copyVa cfg a b c = if a % 4 < 2 then pageVa (a % 4) b c else 2 ^ 64 - 2 ^ 32 +
      pageVa (a % 4) b c := by
    have hmod : pageVa a b c % 2 ^ 32 = pageVa (a % 4) b c := by
      simp only [pageVa]
      omega
    have hsign : pageVa (a % 4) b c < 2 ^ 31 ↔ a % 4 < 2 := by
      simp only [pageVa]
      omega
    have hlt : pageVa (a % 4) b c < 2 ^ 32 := by
      simp only [pageVa]
      omega
    rw [copyVa, pageVa_eq_or hb hc, Config.reg, hxlen, int32, hmod]
    simp only [hsign]
    generalize pageVa (a % 4) b c = x at hlt
    split
    · rw [Int.emod_eq_of_lt (by omega) (by omega), Int.toNat_natCast]
    · rw [← Int.add_emod_right, Int.emod_eq_of_lt (by omega) (by omega)]
      omega
  rw [← vpns_pageVa (copyVpn_lt a) hb hc, vpns_eq_iff, hva]
  intro level hlevel
  simp only [copyVpn]
  match level, hlevel with
  | 0, _ =>
    simp only [vpn, pageVa]
    split <;> omega
  | 1, _ =>
    simp only [vpn, pageVa]
    split <;> omega
  | 2, _ =>
    simp only [vpn, pageVa]
    split <;> omega

/-! ## Writing in the copy -/

/-- The trees of both tables are in pages of their own, and that of the source is as
    it was. -/
structure Intact (dst src : TablePage) (k₀ k : Kernel cfg) : Prop where
  owned : Owned k (both dst src)
  node : ∀ p, p.length ≤ 2 →
    sv39.node k.pte (both dst src) false p = sv39.node k₀.pte (both dst src) false p
  entry : ∀ p, p.length = 3 → sv39.entry k.pte (both dst src) false p =
    sv39.entry k₀.pte (both dst src) false p

/-- When the computation returns, it has written the entries `D` in the tables of the
    copy, and the source is as it was. -/
def Writes (dst src : TablePage) (k₀ : Kernel cfg) (D : List (Fin 512) → Option ℕ) (c : KM cfg Unit) :
    Prop :=
  ∀ k k', Intact dst src k₀ k → c k = .ok () k' → Intact dst src k₀ k' ∧ ∀ p, p.length = 3 →
    sv39.entry k'.pte (both dst src) true p = (D p).getD (sv39.entry k.pte (both dst src) true p)

namespace Writes

variable {c : KM cfg Unit}

theorem pure : Writes dst src k₀ (fun _ => none) (Pure.pure () : KM cfg Unit) := by
  intro k k' h hrun
  cases hrun
  exact ⟨h, fun _ _ => rfl⟩

theorem bind {f : Unit → KM cfg Unit} (hc : Writes dst src k₀ D c) (hf : Writes dst src k₀ D' (f ())) :
    Writes dst src k₀ (fun p => (D' p).or (D p)) (c >>= f) := by
  intro k k' h hrun
  obtain ⟨_, k₁, hrun, hrun'⟩ := bind_eq_ok.1 hrun
  obtain ⟨h₁, hwrites⟩ := hc k k₁ h hrun
  obtain ⟨h', hwrites'⟩ := hf k₁ k' h₁ hrun'
  refine ⟨h', fun p hp => ?_⟩
  rw [hwrites' p hp, hwrites p hp]
  dsimp only
  cases D' p with
  | none => rfl
  | some e => rfl

/-- What is read is what the source has. -/
theorem get_bind {f : Kernel cfg → KM cfg Unit}
    (hf : ∀ k, Intact dst src k₀ k → Writes dst src k₀ D (f k)) :
    Writes dst src k₀ D (get >>= f) := fun k k' h hrun => hf k h k k' h hrun

theorem congr (h : Writes dst src k₀ D c) (hD : ∀ p, p.length = 3 → D p = D' p) :
    Writes dst src k₀ D' c := by
  intro k k' hk hrun
  obtain ⟨hk', hwrites⟩ := h k k' hk hrun
  exact ⟨hk', fun p hp => hD p hp ▸ hwrites p hp⟩

/-- In a loop, the last write of an entry prevails. -/
theorem forM {T : ℕ → List (Fin 512) → Option ℕ} {f : ℕ → KM cfg Unit} {n : ℕ}
    (h : ∀ i < n, Writes dst src k₀ (T i) (f i)) :
    Writes dst src k₀ (fun p => lastSome (fun i => T i p) n) ((List.range n).forM f) := by
  induction n with
  | zero => exact pure
  | succ n ih =>
    have hlast : Writes dst src k₀ (T n) ([n].forM f) :=
      ((h n n.lt_succ_self).bind (f := fun _ => Pure.pure ()) pure).congr fun p _ => Option.none_or
    rw [List.range_succ, show (List.range n ++ [n]).forM f = _ from List.forM_append]
    exact (ih fun i hi => h i (Nat.lt_succ_of_lt hi)).bind hlast

/-- A page is mapped in the copy. -/
theorem mapPage {pa va perm pid : ℕ} (hplaced : Placed cfg) (hmmu : cfg.mmu = true) (hperm : Grants perm) :
    Writes dst src k₀ (fun p => if p = vpns va 3 then some (leafPte pa perm) else none)
      (mapPageSv39 dst pa va perm pid) := by
  intro k k' h hrun
  obtain ⟨⟨k₁, hgrows, hsets⟩, howned⟩ := h.owned.map (r := true) hplaced hmmu rfl hperm hrun
  refine ⟨⟨howned, fun p hp => ?_, fun p hp => ?_⟩, fun p hp => ?_⟩
  · rw [hsets.node hp, hgrows.node_of_ne (by simp) hp, h.node p hp]
  · rw [hsets.entry hp (by simp), hgrows.entry hp, h.entry p hp]
  · dsimp only
    split_ifs with hva
    · rw [hva, hsets.entry_self]
      rfl
    · rw [hsets.entry hp (by simp [hva]), hgrows.entry hp]
      rfl

end Writes

/-! ## The loops -/

/-- The entry that is written for an entry of the source. -/
def copyPte (e : ℕ) : ℕ := leafPte (pteToPhys e) (permMask e)

theorem leafFlags_leafFlags (perm : ℕ) : leafFlags (leafFlags perm) = leafFlags perm := by
  simp only [leafFlags, Nat.or_assoc]
  rfl

theorem Grants.leafFlags {perm : ℕ} (h : Grants perm) : Grants (leafFlags perm) :=
  ⟨leafFlags_lt h.lt, h.reads.imp (fun h => hasBit_leafFlags (.inl h)) fun h => hasBit_leafFlags (.inl h)⟩

theorem permMask_leafPte {pa perm : ℕ} (h : Grants perm) : permMask (leafPte pa perm) = leafFlags perm := by
  rw [leafPte_eq, permMask_or (leafFlags_lt h.lt)]

/-- What is written for the page at some indices of the source. -/
def copied (dst src : TablePage) (k : Kernel cfg) (vpn2 vpn1 vpn0 : ℕ) : Option ℕ :=
  let e := sv39.entry k.pte (both dst src) false (path vpn2 vpn1 vpn0)
  if isUser e then some (copyPte e) else none

/-- The loop over the table of the last level, at two indices. -/
def copyLast (dst pid vpn2 vpn1 src3 : ℕ) : KM cfg Unit :=
  (List.range (numPtes cfg)).forM fun vpn0 => do
    let e := (← get).pte (src3 + 8 * vpn0)
    if isValid e && isUser e then
      mapPageSv39 dst (pteToPhys e) (copyVa cfg vpn2 vpn1 vpn0) (permMask e) pid

/-- The loop over a table of the second level, at an index of the root. -/
def copySecond (dst pid vpn2 src2 : ℕ) : KM cfg Unit :=
  (List.range (numPtes cfg)).forM fun vpn1 => do
    let e := (← get).pte (src2 + 8 * vpn1)
    if isValid e then copyLast dst pid vpn2 vpn1 (pteToPhys e)

theorem copyPageTable_eq (hmmu : cfg.mmu = true) (dst src pid : ℕ) :
    (copyPageTable dst src pid : KM cfg Unit) = (List.range (numPtes cfg)).forM (fun vpn2 => do
      let e := (← get).pte (src + 8 * vpn2)
      if isValid e then copySecond dst pid vpn2 (pteToPhys e)) :=
  if_pos hmmu

/-- A turn of the upper loops: the entry of a table is read, and the loop goes into
    the table that it leads to. -/
theorem writes_turn {p : List (Fin 512)} {n : ℕ} (body : ℕ → KM cfg Unit)
    (hp : p.length ≤ 1) (hn : n < 512)
    (ht : sv39.node k₀.pte (both dst src) false p = some t)
    (hsome : ∀ u, sv39.node k₀.pte (both dst src) false (Fin.ofNat 512 n :: p) = some u →
      Writes dst src k₀ D (body u))
    (hnone : sv39.node k₀.pte (both dst src) false (Fin.ofNat 512 n :: p) = none →
      ∀ q, q.length = 3 → D q = none) :
    Writes dst src k₀ D (do
      let e := (← get).pte (t + 8 * n)
      if isValid e then body (pteToPhys e)) := by
  refine Writes.get_bind fun k hk => ?_
  dsimp only
  have hlen : (Fin.ofNat 512 n :: p).length ≤ 2 := Nat.succ_le_succ hp
  have htable : sv39.node k.pte (both dst src) false p = some t := (hk.node p (hp.trans (by decide))).trans ht
  have hentry : sv39.entry k.pte (both dst src) false (Fin.ofNat 512 n :: p) = k.pte (t + 8 * n) := by
    rw [entry_of_node htable]
    show k.pte (t + 8 * (n % 512)) = _
    rw [Nat.mod_eq_of_lt hn]
  have hnode := (hk.node _ hlen).symm.trans node_cons
  rw [hentry] at hnode
  have hinner := hk.owned.tables.inner (r := false) hlen
  rw [hentry] at hinner
  rcases hinner with hzero | he
  · rw [hzero, if_neg (by decide)]
    rw [hzero, sv39.next_zero] at hnode
    exact Writes.pure.congr fun q hq => (hnone hnode q hq).symm
  · rw [if_pos (isValid_of_isNonleaf he)]
    rw [sv39_next (ne_zero_of_isNonleaf he)] at hnode
    exact hsome _ hnode

section

variable (hplaced : Placed cfg) (hmmu : cfg.mmu = true) (hxlen : cfg.xlen = 64)
  (howned : Owned k₀ (both dst src))
include hplaced hmmu hxlen howned

/-- A turn of the last loop: a user page is mapped at the address of its copy. -/
theorem writes_leaf {a b c pid : ℕ} (hb : b < 512) (hc : c < 512)
    (ht : sv39.node k₀.pte (both dst src) false [Fin.ofNat 512 b, Fin.ofNat 512 a] = some t) :
    Writes dst src k₀ (fun p => if p = path (copyVpn a) b c then copied dst src k₀ a b c else none) (do
      let e := (← get).pte (t + 8 * c)
      if isValid e && isUser e then mapPageSv39 dst (pteToPhys e) (copyVa cfg a b c) (permMask e) pid) := by
  refine Writes.get_bind fun k hk => ?_
  dsimp only
  have htable := (hk.node _ (by exact le_rfl)).trans ht
  have hentry : k.pte (t + 8 * c) = sv39.entry k₀.pte (both dst src) false (path a b c) := by
    rw [← hk.entry _ rfl, path, entry_of_node htable]
    show _ = k.pte (t + 8 * (c % 512))
    rw [Nat.mod_eq_of_lt hc]
  rw [hentry, copied]
  rcases howned.leaves (r := false) (p := path a b c) rfl with hzero | ⟨pa, perm, hperm, he⟩
  · rw [hzero, if_neg (by decide)]
    exact Writes.pure.congr fun q _ => by simp
  · rw [he, (isLeaf_leafPte hperm).1, Bool.true_and]
    split_ifs with huser
    · have hgrants : Grants (permMask (leafPte pa perm)) := permMask_leafPte hperm ▸ hperm.leafFlags
      refine (Writes.mapPage hplaced hmmu hgrants).congr fun q _ => ?_
      rw [vpns_copyVa hxlen hb hc]
      rfl
    · exact Writes.pure.congr fun q _ => by simp

omit hplaced hmmu hxlen howned in
/-- Where there is no table there is nothing to copy. -/
theorem copied_of_none {a b c : ℕ}
    (h : sv39.node k₀.pte (both dst src) false [Fin.ofNat 512 b, Fin.ofNat 512 a] = none) :
    copied dst src k₀ a b c = none := by
  have hzero : sv39.entry k₀.pte (both dst src) false (path a b c) = 0 := entry_of_none h
  rw [copied, hzero]
  rfl

/-- The entries that `copy_page_table` writes. -/
theorem writes_copyPageTable (pid : ℕ) :
    Writes dst src k₀ (fun p => lastSome (fun a => lastSome (fun b => lastSome (fun c =>
      if p = path (copyVpn a) b c then copied dst src k₀ a b c else none) 512) 512) 512)
        (copyPageTable dst src pid) := by
  have hptes : numPtes cfg = 512 := by
    rw [numPtes, Config.regSz, hxlen, cfg.pageSize_of_mmu hmmu]
  rw [copyPageTable_eq hmmu, hptes]
  refine Writes.forM fun a ha => ?_
  refine writes_turn (copySecond dst pid a) (p := []) (Nat.zero_le 1) ha rfl
    (fun u hu => ?_) fun hnone q _ => ?_
  · rw [copySecond, hptes]
    refine Writes.forM fun b hb => ?_
    refine writes_turn (copyLast dst pid a b) (by exact le_rfl) hb hu (fun v hv => ?_) fun hnone q _ => ?_
    · rw [copyLast, hptes]
      exact Writes.forM fun c hc => writes_leaf hplaced hmmu hxlen howned hb hc hv
    · refine lastSome_of_none fun c _ => ?_
      rw [copied_of_none hnone, ite_self]
  · refine lastSome_of_none fun b _ => lastSome_of_none fun c _ => ?_
    rw [copied_of_none (by rw [Layout.node, hnone, Option.bind_none]), ite_self]

end

/-- Of the writes of an entry, the last is from the last table that is copied to its
    place. -/
theorem lastSome_path (a b c : ℕ) (ha : a < 512) (hb : b < 512) (hc : c < 512) :
    lastSome (fun a' => lastSome (fun b' => lastSome (fun c' =>
      if path a b c = path (copyVpn a') b' c' then copied dst src k a' b' c' else none) 512) 512) 512 =
    lastSome (fun a' => if copyVpn a' = a then copied dst src k a' b c else none) 512 := by
  refine congrArg (lastSome · 512) (funext fun a' => ?_)
  have hcopy := copyVpn_lt a'
  rw [lastSome_single hb fun b' hb' hne => ?_, lastSome_single hc fun c' hc' hne => ?_]
  · refine if_congr ⟨fun h => ?_, fun h => ?_⟩ rfl rfl
    · exact (path_inj ha hb hc hcopy hb hc h).1.symm
    · rw [h]
  · exact if_neg fun h => hne (path_inj ha hb hc hcopy hb hc' h).2.2.symm
  · exact lastSome_of_none fun c' hc' => if_neg fun h => hne (path_inj ha hb hc hcopy hb' hc' h).2.1.symm

/-! ## Translation -/

/-- The physical address that an address is translated to, with the permission bits. -/
def translation (k : Kernel cfg) (pt va : ℕ) : Option (ℕ × ℕ) :=
  (leaf k.pte pt va).map fun e => (image cfg e va, permMask e)

/-- An address has a leaf for the user. -/
def userLeaf (k : Kernel cfg) (pt va : ℕ) : Bool := (leaf k.pte pt va).any isUser

/-- A page for the user whose root index is lost does no harm: the copy had it
    before; and if the copy that is made of it in another place prevails there, it
    is what belongs there. -/
structure Harmless (k : Kernel cfg) (dst src vpn2 vpn1 vpn0 : ℕ) : Prop where
  there : translation k dst (pageVa vpn2 vpn1 vpn0) = translation k src (pageVa vpn2 vpn1 vpn0)
  last : (∀ v < 512, vpn2 < v → v % 4 = vpn2 % 4 → userLeaf k src (pageVa v vpn1 vpn0) = false) →
    translation k src (pageVa vpn2 vpn1 vpn0) =
      if userLeaf k src (pageVa (copyVpn vpn2) vpn1 vpn0) then
        translation k src (pageVa (copyVpn vpn2) vpn1 vpn0)
      else translation k dst (pageVa (copyVpn vpn2) vpn1 vpn0)

/-- What an entry of the last level says. -/
def view (e : ℕ) : Option (ℕ × ℕ) := if e = 0 then none else some (pteToPhys e, permMask e)

/-- The entry that is written for a leaf says the same. -/
theorem view_copyPte {pa perm : ℕ} (h : Grants perm) :
    view (copyPte (leafPte pa perm)) = view (leafPte pa perm) := by
  have hmask : permMask (leafPte pa perm) = leafFlags perm := permMask_leafPte h
  have hphys : pteToPhys (leafPte pa perm) < 2 ^ 64 := Nat.mod_lt _ (by decide)
  have hcopy : copyPte (leafPte pa perm) = physToPte (pteToPhys (leafPte pa perm)) ||| leafFlags perm := by
    rw [copyPte, leafPte_eq, hmask, leafFlags_leafFlags]
  have hne : copyPte (leafPte pa perm) ≠ 0 := by
    rw [copyPte, hmask]
    exact (isLeaf_leafPte h.leafFlags).ne_zero
  rw [view, view, if_neg hne, if_neg (isLeaf_leafPte h).ne_zero, hmask, hcopy, permMask_or (leafFlags_lt h.lt),
    pteToPhys_or hphys (dvd_pteToPhys _) (leafFlags_lt h.lt)]

section

variable (howned : Owned k (both dst src)) {va : ℕ}
include howned

theorem translation_eq (b : Bool) : translation k (cond b dst src : TablePage) va =
    (view (sv39.entry k.pte (both dst src) b (vpns va 3))).map fun x => (x.1 ||| pageOffs cfg va, x.2) := by
  rw [translation, leaf_eq (r := b) howned.tables rfl, view]
  split_ifs
  · rfl
  · rfl

theorem userLeaf_eq (b : Bool) : userLeaf k (cond b dst src : TablePage) va =
    isUser (sv39.entry k.pte (both dst src) b (vpns va 3)) := by
  rw [userLeaf, leaf_eq (r := b) howned.tables rfl]
  split_ifs with hzero
  · rw [hzero]
    rfl
  · rfl

omit howned in
theorem pageOffs_pageVa (hmmu : cfg.mmu = true) (a b c : ℕ) : pageOffs cfg (pageVa a b c) = 0 := by
  rw [pageOffs, cfg.pageSize_of_mmu hmmu, pageVa]
  omega

/-- What the copy says of a page afterwards: it is from the last of the user pages
    that are copied there, if there is one. -/
theorem view_copy (hplaced : Placed cfg) (hmmu : cfg.mmu = true) (hxlen : cfg.xlen = 64) {pid a b c : ℕ}
    (ha : a < 512) (hb : b < 512) (hc : c < 512) (h : copyPageTable dst src pid k = .ok () k') :
    (view (sv39.entry k'.pte (both dst src) true (path a b c)) =
      view (sv39.entry k.pte (both dst src) true (path a b c)) ∧
      ∀ v < 512, copyVpn v = a → isUser (sv39.entry k.pte (both dst src) false (path v b c)) = false) ∨
    ∃ v < 512, copyVpn v = a ∧ isUser (sv39.entry k.pte (both dst src) false (path v b c)) = true ∧
      view (sv39.entry k'.pte (both dst src) true (path a b c)) =
        view (sv39.entry k.pte (both dst src) false (path v b c)) ∧
      ∀ w, v < w → w < 512 → copyVpn w = a →
      isUser (sv39.entry k.pte (both dst src) false (path w b c)) = false := by
  have hentry :=
    (writes_copyPageTable hplaced hmmu hxlen howned pid k k' ⟨howned, fun _ _ => rfl, fun _ _ => rfl⟩ h).2
    (path a b c) rfl
  dsimp only at hentry
  rw [lastSome_path a b c ha hb hc] at hentry
  have hnone : ∀ v, (if copyVpn v = a then copied dst src k v b c else none) = none → copyVpn v = a →
      isUser (sv39.entry k.pte (both dst src) false (path v b c)) = false := by
    intro v hv hva
    rw [if_pos hva, copied] at hv
    cases huser : isUser (sv39.entry k.pte (both dst src) false (path v b c)) with
    | false => rfl
    | true => simp [huser] at hv
  -- What the copy has at the end is what was written there last, if anything was.
  rcases lastSome_cases (fun v => if copyVpn v = a then copied dst src k v b c else none) 512 with
    ⟨hlast, hall⟩ | ⟨v, hv, e, he, hlast, hlater⟩
  · refine .inl ⟨?_, fun v hv => hnone v (hall v hv)⟩
    rw [hentry, hlast, Option.getD_none]
  · split_ifs at he with hva
    rw [copied] at he
    split_ifs at he with huser
    obtain rfl := Option.some.inj he
    refine .inr ⟨v, hv, hva, huser, ?_, fun w hvw hw => hnone w (hlater w hvw hw)⟩
    rw [hentry, hlast, Option.getD_some]
    rcases howned.leaves (r := false) (p := path v b c) rfl with hzero | ⟨pa, perm, hperm, hleaf⟩
    · rw [hzero] at huser
      exact absurd huser (by decide)
    · rw [hleaf]
      exact view_copyPte hperm

end

/-- What is copied is right at every index of the root if and only if what is lost
    does no harm: `X` and `Y` are what the source and the copy had there, `Z` is what
    the copy has afterwards, and `U` says what is for the user. -/
theorem copied_right_iff {α : Type} {X Y Z : ℕ → α} {U : ℕ → Bool}
    (hcopy : ∀ a < 512, (Z a = Y a ∧ ∀ v < 512, copyVpn v = a → U v = false) ∨
      ∃ v < 512, copyVpn v = a ∧ U v = true ∧ Z a = X v ∧ ∀ w, v < w → w < 512 →
      copyVpn w = a → U w = false) :
    (∀ a < 512, Z a = if U a then X a else Y a) ↔ ∀ a < 512, a ∉ [0, 1, 510, 511] → U a = true →
      Y a = X a ∧ ((∀ v < 512, a < v → v % 4 = a % 4 → U v = false) →
        X a = if U (copyVpn a) then X (copyVpn a) else Y (copyVpn a)) := by
  constructor
  · intro hright a ha hlost huser
    refine ⟨?_, fun hlater => ?_⟩
    · -- Nothing is copied to this index.
      rcases hcopy a ha with ⟨hz, -⟩ | ⟨v, -, hv, -⟩
      · rw [← hz, hright a ha, if_pos huser]
      · refine absurd ((copyVpn_eq_self ha).1 ?_) hlost
        rw [← hv, copyVpn_copyVpn]
    · -- What is copied to the other index is from this one.
      rw [← hright _ (copyVpn_lt a)]
      rcases hcopy _ (copyVpn_lt a) with ⟨-, hnone⟩ | ⟨v, hv, hva, huserv, hz, hlast⟩
      · rw [hnone a ha rfl] at huser
        cases huser
      · rw [hz]
        rcases Nat.lt_trichotomy a v with hlt | rfl | hlt
        · rw [hlater v hv hlt (copyVpn_eq_iff.1 hva)] at huserv
          cases huserv
        · rfl
        · rw [hlast a hlt ha rfl] at huser
          cases huser
  · intro hharmless a ha
    rcases hcopy a ha with ⟨hz, hnone⟩ | ⟨v, hv, rfl, huser, hz, hlast⟩
    · rw [hz]
      cases huser : U a with
      | false => rfl
      | true =>
        have hlost : a ∉ [0, 1, 510, 511] := by
          intro hkept
          rw [hnone a ha ((copyVpn_eq_self ha).2 hkept)] at huser
          cases huser
        exact (hharmless a ha hlost huser).1
    · rw [hz]
      by_cases hkept : v ∈ [0, 1, 510, 511]
      · rw [(copyVpn_eq_self hv).2 hkept, if_pos huser]
      · exact (hharmless v hv hkept huser).2 fun w hw hvw hmod => hlast w hvw hw (copyVpn_eq_iff.2 hmod)

/-- `copy_page_table` keeps the user pages of the source, and the other pages of the
    copy, if and only if every user page whose index of the root is lost does no
    harm. -/
theorem copyPageTable_iff {dst src pid : ℕ} (hplaced : Placed cfg)
    (hmmu : cfg.mmu = true) (hxlen : cfg.xlen = 64)
    (hdst : Built dst k) (hsrc : Built src k) (hdisjoint : ∀ u, IsTable k.pte dst u → ¬IsTable k.pte src u)
    (h : copyPageTable dst src pid k = .ok () k') :
    (∀ va < 2 ^ 39, translation k' dst va =
      if userLeaf k src va then translation k src va else translation k dst va) ↔
    ∀ a < 512, ∀ b < 512, ∀ c < 512, a ∉ [0, 1, 510, 511] → userLeaf k src (pageVa a b c) = true →
      Harmless k dst src a b c := by
  obtain ⟨hd, hdst⟩ := hdst.owned hplaced hmmu
  obtain ⟨hs, hsrc⟩ := hsrc.owned hplaced hmmu
  have howned := hdst.pair hsrc hdisjoint
  set root := both ⟨dst, hd⟩ ⟨src, hs⟩ with hroot
  have howned' : Owned k' root := (writes_copyPageTable hplaced hmmu hxlen howned pid k k'
    ⟨howned, fun _ _ => rfl, fun _ _ => rfl⟩ h).1.owned
  set S := fun p => sv39.entry k.pte root false p with hS
  set E := fun p => sv39.entry k.pte root true p with hE
  set E' := fun p => sv39.entry k'.pte root true p with hE'
  have hsrcView : ∀ va, translation k src va = (view (S (vpns va 3))).map fun x =>
      (x.1 ||| pageOffs cfg va, x.2) :=
    fun va => translation_eq howned false
  have hdstView : ∀ va, translation k dst va = (view (E (vpns va 3))).map fun x =>
      (x.1 ||| pageOffs cfg va, x.2) :=
    fun va => translation_eq howned true
  have hdstView' : ∀ va, translation k' dst va = (view (E' (vpns va 3))).map fun x =>
      (x.1 ||| pageOffs cfg va, x.2) :=
    fun va => translation_eq howned' true
  have huser : ∀ va, userLeaf k src va = isUser (S (vpns va 3)) := fun va => userLeaf_eq howned false
  -- The translation of the addresses of pages is that of all addresses.
  have hzero : ∀ a b c, (fun x : ℕ × ℕ => (x.1 ||| pageOffs cfg (pageVa a b c), x.2)) = id := by
    intro a b c
    rw [pageOffs_pageVa hmmu]
    exact funext fun x => by rw [Nat.or_zero]; rfl
  have hpages : (∀ va < 2 ^ 39, translation k' dst va =
        if userLeaf k src va then translation k src va else translation k dst va) ↔
      ∀ b < 512, ∀ c < 512, ∀ a < 512, view (E' (path a b c)) =
        if isUser (S (path a b c)) then view (S (path a b c)) else view (E (path a b c)) := by
    constructor
    · intro hall b hb c hc a ha
      have hpage := hall (pageVa a b c) (by rw [pageVa]; omega)
      rwa [hsrcView, hdstView, hdstView', huser, vpns_pageVa ha hb hc, hzero,
        Option.map_id, id, id, id] at hpage
    · intro hall va hva
      have hlt : ∀ level, vpn va level < 512 := fun level => Nat.mod_lt _ (by decide)
      have hpath : path (vpn va 2) (vpn va 1) (vpn va 0) = vpns va 3 := by
        simp only [path, vpns, vpnIndex, List.cons.injEq, and_true]
        exact ⟨Fin.ext (Nat.mod_eq_of_lt (hlt 0)), Fin.ext (Nat.mod_eq_of_lt (hlt 1)),
          Fin.ext (Nat.mod_eq_of_lt (hlt 2))⟩
      have hpage := hall _ (hlt 1) _ (hlt 0) _ (hlt 2)
      rw [hpath] at hpage
      rw [hsrcView, hdstView, hdstView', huser, hpage]
      split_ifs
      · rfl
      · rfl
  have hright := fun {b c} (hb : b < 512) (hc : c < 512) =>
    copied_right_iff fun a ha => view_copy howned hplaced hmmu hxlen ha hb hc h
  rw [hpages]
  constructor
  · intro hall a ha b hb c hc hlost hleaf
    rw [huser, vpns_pageVa ha hb hc] at hleaf
    obtain ⟨hthere, hlast⟩ := (hright hb hc).1 (hall b hb c hc) a ha hlost hleaf
    refine ⟨?_, fun hlater => ?_⟩
    · rw [hdstView, hsrcView, vpns_pageVa ha hb hc]
      exact congrArg (Option.map _) hthere
    · rw [hsrcView, hsrcView, hdstView, huser, vpns_pageVa ha hb hc,
        vpns_pageVa (copyVpn_lt a) hb hc, hzero, hzero,
        Option.map_id, id, id, id]
      refine hlast fun v hv hav hmod => ?_
      have hnone := hlater v hv hav hmod
      rwa [huser, vpns_pageVa hv hb hc] at hnone
  · intro hharmless b hb c hc
    refine (hright hb hc).2 fun a ha hlost hleaf => ?_
    obtain ⟨hthere, hlast⟩ :=
      hharmless a ha b hb c hc hlost (by rw [huser, vpns_pageVa ha hb hc]; exact hleaf)
    rw [hsrcView, hdstView, vpns_pageVa ha hb hc, hzero, Option.map_id, id, id] at hthere
    refine ⟨hthere, fun hlater => ?_⟩
    rw [hsrcView, hsrcView, hdstView, huser, vpns_pageVa ha hb hc, vpns_pageVa (copyVpn_lt a) hb hc,
      hzero, hzero,
      Option.map_id, id, id, id] at hlast
    refine hlast fun v hv hav hmod => ?_
    rw [huser, vpns_pageVa hv hb hc]
    exact hlater v hv hav hmod

/-! ## A page that is lost, and one that is kept -/

theorem farPa_lt : 0x80014000 < 2 ^ 64 := by decide

theorem dvd_farPa : 4096 ∣ 0x80014000 := by decide

/-- A page of a process at 2 GiB. -/
def farPage : PageMapping := ⟨0x80014000, 0x80000000, permUdata, 0, farPa_lt, dvd_farPa, grants_permUdata⟩

/-- The first page of its stack. -/
def stackPage : PageMapping :=
  ⟨0x80014000, topmostVirtPage, permUdata, 0, farPa_lt, dvd_farPa, grants_permUdata⟩

/-- The first page of the `virt` build. -/
def firstPage : Fin Config.qemuVirt.numPages := ⟨0, by decide⟩

/-- Two pages of the `virt` build are taken for tables. -/
def twoTables : Kernel .qemuVirt :=
  ((initKernel .qemuVirt fun _ => 0).takePage firstPage 0).takePage ⟨1, by decide⟩ 0

/-- The entries of a table that are not zero. -/
def filled (k : Kernel cfg) (t : ℕ) : List ℕ := (List.range 512).filter fun n => k.pte (t + 8 * n) ≠ 0

/-- The page is mapped in one table, which is copied to the other. What is returned
    is whether the other one was still bare and the root of the first had an entry
    at this index only, and what the tables say of the page. -/
def copyOnePage (page : PageMapping) (vpn2 : ℕ) :
    KM .qemuVirt (Bool × Bool × Option (ℕ × ℕ) × Option (ℕ × ℕ)) := do
  mapPages 0x80010000 [page]
  let k ← get
  copyPageTable 0x8000f000 0x80010000 0
  return (filled k 0x8000f000 = [] ∧ filled k 0x80010000 = [vpn2] ∧ (k.pages firstPage).flags ≠ pageFree,
    userLeaf k 0x80010000 page.va, translation k 0x80010000 page.va, translation (← get) 0x8000f000 page.va)

theorem pte_of_filled {t n : ℕ} (hn : n < 512) (h : n ∉ filled k t) : k.pte (t + 8 * n) = 0 := by
  simpa [filled, hn] using h

/-- What it returns is so of tables that have been built. -/
theorem copyOnePage_ok {page : PageMapping} {vpn2 : ℕ} {user : Bool} {x y : Option (ℕ × ℕ)}
    (h : value (copyOnePage page vpn2 twoTables) = some (true, user, x, y)) :
    ∃ k k' : Kernel .qemuVirt, Built 0x8000f000 k ∧ Built 0x80010000 k ∧
      (∀ u, IsTable k.pte 0x8000f000 u → ¬IsTable k.pte 0x80010000 u) ∧
      copyPageTable 0x8000f000 0x80010000 0 k = .ok () k' ∧ filled k 0x80010000 = [vpn2] ∧
      userLeaf k 0x80010000 page.va = user ∧ translation k 0x80010000 page.va = x ∧
      translation k' 0x8000f000 page.va = y := by
  obtain ⟨_, hdo⟩ := value_eq_some h
  obtain ⟨_, k, hmap, hrest⟩ := bind_eq_ok.1 hdo
  obtain ⟨_, _, hget, hrest⟩ := bind_eq_ok.1 hrest
  cases hget
  obtain ⟨_, k', hcopy, hrest⟩ := bind_eq_ok.1 hrest
  obtain ⟨_, _, hget, hrest⟩ := bind_eq_ok.1 hrest
  cases hget
  obtain ⟨hvalues, -⟩ := EStateM.Result.ok.inj hrest
  simp only [Prod.mk.injEq, decide_eq_true_eq] at hvalues
  obtain ⟨⟨hbare, hentries, htaken⟩, huser, hsrc, hdst⟩ := hvalues
  have hplaced : Placed .qemuVirt := ⟨by decide, by decide, by decide, by decide, by decide⟩
  have hdstBuilt : Built 0x8000f000 k := .zeroed (i := firstPage) (by decide) htaken fun n hn =>
    pte_of_filled hn (by simp [hbare])
  have hsrcBuilt : Built 0x80010000 k :=
    (Built.zeroed (k := twoTables) (i := ⟨1, by decide⟩) (by decide) (by decide) fun _ _ => rfl).mapPages
      rfl hmap
  -- The two tables share no page at the start, nor after the mapping.
  have htables : Owned twoTables (both ⟨0x8000f000, by decide⟩ ⟨0x80010000, by decide⟩) := by
    refine .pair (.zeroed (i := firstPage) (by decide) (by decide) fun _ _ => rfl)
      (.zeroed (i := ⟨1, by decide⟩) (by decide) (by decide) fun _ _ => rfl) fun a ha ha' => ?_
    have heq := (isTable_of_bare (fun _ _ => rfl) ha).symm.trans (isTable_of_bare (fun _ _ => rfl) ha')
    exact absurd heq (by decide)
  obtain ⟨k₁, hfirst, hnil⟩ := mapPages_cons rfl hmap
  cases hnil
  rw [← mapPageSv39_of_mmu rfl] at hfirst
  have howned := (htables.map (r := false) hplaced rfl rfl (PageMapping.grants _) hfirst).2
  exact ⟨k, k', hdstBuilt, hsrcBuilt, howned.disjoint, hcopy, hentries, huser, hsrc, hdst⟩

/-- The page is mapped in the source, and not in the copy. -/
theorem farPage_lost : ∃ k k' : Kernel .qemuVirt, Built 0x8000f000 k ∧ Built 0x80010000 k ∧
    (∀ u, IsTable k.pte 0x8000f000 u → ¬IsTable k.pte 0x80010000 u) ∧
    copyPageTable 0x8000f000 0x80010000 0 k = .ok () k' ∧ userLeaf k 0x80010000 0x80000000 = true ∧
    translation k 0x80010000 0x80000000 = some (0x80014000, 0xd7) ∧
    translation k' 0x8000f000 0x80000000 = none := by
  have hcopy : value (copyOnePage farPage 2 twoTables) = some (true, true, some (0x80014000, 0xd7), none) := by
    decide +kernel
  obtain ⟨k, k', hdst, hsrc, hdisjoint, hcopy, -, huser, hsource, hlost⟩ := copyOnePage_ok hcopy
  exact ⟨k, k', hdst, hsrc, hdisjoint, hcopy, huser, hsource, hlost⟩

/-- A copy that loses a page. -/
theorem copyPageTable_loses : ¬∀ {cfg : Config} {k k' : Kernel cfg} {dst src pid : ℕ}, Placed cfg →
    cfg.mmu = true →
    cfg.xlen = 64 → Built dst k → Built src k → (∀ u, IsTable k.pte dst u → ¬IsTable k.pte src u) →
    copyPageTable dst src pid k = .ok () k' → ∀ va < 2 ^ 39, translation k' dst va =
      if userLeaf k src va then translation k src va else translation k dst va := by
  intro hall
  obtain ⟨k, k', hdst, hsrc, hdisjoint, hcopy, huser, hsource, hlost⟩ := farPage_lost
  have hpage := hall ⟨by decide, by decide, by decide, by decide, by decide⟩ rfl rfl hdst hsrc
    hdisjoint hcopy 0x80000000
    (by decide)
  rw [huser, if_pos rfl, hsource, hlost] at hpage
  cases hpage

/-- Below an entry of the root that is zero there is no page. -/
theorem userLeaf_of_zero {t va : ℕ} (h : k.pte (t + 8 * vpn va 2) = 0) : userLeaf k t va = false := by
  have hinvalid : isValid 0 = false := by decide
  simp [userLeaf, leaf, walk, h, hinvalid]

/-- The stack has an index of the root that is kept, so all pages are in the copy. -/
theorem stackPage_kept : ∃ k k' : Kernel .qemuVirt, copyPageTable 0x8000f000 0x80010000 0 k = .ok () k' ∧
    translation k' 0x8000f000 topmostVirtPage = some (0x80014000, 0xd7) ∧
    ∀ va < 2 ^ 39, translation k' 0x8000f000 va =
      if userLeaf k 0x80010000 va then translation k 0x80010000 va else translation k 0x8000f000 va := by
  have hcopy : value (copyOnePage stackPage 0 twoTables) =
      some (true, true, some (0x80014000, 0xd7), some (0x80014000, 0xd7)) := by
    decide +kernel
  obtain ⟨k, k', hdst, hsrc, hdisjoint, hcopy, hentries, -, -, hkept⟩ := copyOnePage_ok hcopy
  refine ⟨k, k', hcopy, hkept,
    (copyPageTable_iff ⟨by decide, by decide, by decide, by decide, by decide⟩ rfl rfl hdst hsrc
    hdisjoint hcopy).2 fun a ha b hb c hc hlost huser => ?_⟩
  have hvpn : vpn (pageVa a b c) 2 = a := by
    rw [vpn, pageVa]
    omega
  have hzero : k.pte (0x80010000 + 8 * vpn (pageVa a b c) 2) = 0 := by
    rw [hvpn]
    refine pte_of_filled ha ?_
    rw [hentries]
    simp only [List.mem_cons, not_or] at hlost ⊢
    exact ⟨hlost.1, List.not_mem_nil⟩
  rw [userLeaf_of_zero hzero] at huser
  cases huser

end HobbyOs
