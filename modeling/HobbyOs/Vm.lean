import HobbyOs.PageAlloc

/-!
# Page tables

`vm.c`: the Sv39 page tables of the builds with an MMU. A table is a page of
512 words; the word of the entry `n` of the table at `t` is `pte (t + 8 * n)`.
Without an MMU (`vm-stub.c`) the functions do nothing and addresses translate
to themselves.

* `va2pa` looks an address up, at whatever permissions;
* `mapPageSv39` sets an entry and allocates the tables on the way to it; when
  there is no page left for one, the kernel panics.
-/

namespace HobbyOs

variable {cfg : Config}

/-! ## Entries -/

abbrev pteV : ℕ := 1
abbrev pteR : ℕ := 2
abbrev pteW : ℕ := 4
abbrev pteX : ℕ := 8
abbrev pteU : ℕ := 16
abbrev pteA : ℕ := 64
abbrev pteD : ℕ := 128

abbrev permKcode : ℕ := pteR ||| pteX
abbrev permKdata : ℕ := pteR ||| pteW
abbrev permKrodata : ℕ := pteR
abbrev permNonleaf : ℕ := pteV
abbrev permUcode : ℕ := pteU ||| pteR ||| pteX
abbrev permUdata : ℕ := pteU ||| pteR ||| pteW
abbrev permUrodata : ℕ := pteU ||| pteR

/-- `HAS_V`, `HAS_R` and so on: a bit of an entry is set. -/
def hasBit (bit pte : ℕ) : Bool := pte &&& bit ≠ 0

/-- `IS_VALID`. -/
def isValid (pte : ℕ) : Bool := hasBit pteV pte || (!hasBit pteR pte && hasBit pteW pte)

/-- `IS_NONLEAF`. -/
def isNonleaf (pte : ℕ) : Bool := hasBit pteV pte && !hasBit pteR pte && !hasBit pteX pte

/-- `IS_USER`. -/
def isUser (pte : ℕ) : Bool := hasBit pteU pte

/-- `PERM_MASK`. -/
def permMask (pte : ℕ) : ℕ := pte % 2 ^ 10

/-- `PHYS_TO_PTE`. -/
def physToPte (pa : ℕ) : ℕ := pa / 2 ^ 12 * 2 ^ 10

/-- `PTE_TO_PHYS`. -/
def pteToPhys (pte : ℕ) : ℕ := pte / 2 ^ 10 * 2 ^ 12 % 2 ^ 64

/-- `VPN`. -/
def vpn (va level : ℕ) : ℕ := va / 2 ^ (12 + 9 * level) % 2 ^ 9

/-- `PAGE_OFFS`. -/
def pageOffs (cfg : Config) (va : ℕ) : ℕ := va % cfg.pageSize

/-- `MAKE_SATP`. -/
def makeSatp (cfg : Config) (pt : ℕ) : ℕ := if cfg.mmu then pt / 2 ^ 12 ||| 2 ^ 63 else 0

/-! ## Translation -/

/-- The walk of `va2pa` from the table `pt` of a level down: the leaf entry of
    `va`. -/
def walk (pte : ℕ → ℕ) (va : ℕ) : ℕ → ℕ → Option ℕ
  | level, pt =>
    let e := pte (pt + 8 * vpn va level)
    if !isValid e then none
    else if !isNonleaf e then some e
    else match level with
      | 0 => none
      | l + 1 => walk pte va l (pteToPhys e)

/-- The leaf entry of `va` in the table `pt`. -/
def leaf (pte : ℕ → ℕ) (pt va : ℕ) : Option ℕ := walk pte va 2 pt

/-- The physical address of `va` by its leaf entry. -/
def image (cfg : Config) (e va : ℕ) : ℕ := pteToPhys e ||| pageOffs cfg va

/-- `va2pa`: the physical address, or null. -/
def va2pa (k : Kernel cfg) (pt va : ℕ) : ℕ :=
  if cfg.mmu then
    match leaf k.pte pt va with
    | none => 0
    | some e => image cfg e va
  else va

/-! ## Mapping -/

/-- `memset(pagetable, PAGE_SIZE, 0)`. -/
def clearTable (pt : ℕ) : KM cfg Unit :=
  modify fun k => { k with pte := fun a => if pt ≤ a ∧ a < pt + cfg.pageSize then 0 else k.pte a }

/-- `pagetable[n] = e`. -/
def setPte (pt n e : ℕ) : KM cfg Unit :=
  modify fun k => { k with pte := Function.update k.pte (pt + 8 * n) e }

/-- `map_page_sv39`, from the table `pt` of a level down. -/
def mapPageLevel (pa va perm pid : ℕ) : ℕ → ℕ → KM cfg Unit
  | 0, pt => setPte pt (vpn va 0) (physToPte pa ||| perm ||| pteA ||| pteD ||| pteV)
  | level + 1, pt => do
    let e := (← get).pte (pt + 8 * vpn va (level + 1))
    if e = 0 then
      match ← kalloc pid with
      | none => throw .panic
      | some next =>
        clearTable next
        setPte pt (vpn va (level + 1)) (physToPte next ||| permNonleaf)
        mapPageLevel pa va perm pid level next
    else mapPageLevel pa va perm pid level (pteToPhys e)

/-- `map_page_sv39`. -/
def mapPageSv39 (pt pa va perm pid : ℕ) : KM cfg Unit :=
  if cfg.mmu then mapPageLevel pa va perm pid 2 pt else return ()

/-- `map_range`, for a range of whole pages. -/
def mapRange (pt pa va perm pid n : ℕ) : KM cfg Unit :=
  (List.range n).forM fun i =>
    mapPageSv39 pt (pa + i * cfg.pageSize) (va + i * cfg.pageSize) perm pid

/-- `init_user_page_table`. -/
def initUserPageTable (pt pid : ℕ) : KM cfg Unit := do
  if cfg.mmu then
    clearTable pt
    mapPageSv39 pt cfg.ramStart cfg.ramStart permKdata pid
    mapPageSv39 pt cfg.kernelCodeStart cfg.kernelCodeStart permKcode pid
    let trapFramePage := cfg.pageRoundDown cfg.trapFrameAddr
    mapPageSv39 pt trapFramePage trapFramePage permKdata pid
    let pagedMemoryPage := cfg.pageRoundDown cfg.pagedMemoryAddr
    mapPageSv39 pt pagedMemoryPage pagedMemoryPage permKdata pid
    mapRange pt cfg.rodataStart (cfg.usrVirt cfg.rodataStart) permUrodata pid cfg.rodataPages
    mapRange pt cfg.userCodeStart (cfg.usrVirt cfg.userCodeStart) permUcode pid cfg.userCodePages

/-- `make_kernel_page_table`. -/
def makeKernelPageTable : KM cfg Unit := do
  if cfg.mmu then
    match ← kalloc noPid with
    | none => throw .panic
    | some pt =>
      clearTable pt
      cfg.kernelRanges.forM fun (start, n, perm) => mapRange pt start start perm noPid n
      (List.finRange cfg.numPages).forM fun i =>
        mapPageSv39 pt (cfg.pagePtr i) (cfg.pagePtr i) permKdata noPid
      cfg.devicePages.forM fun a => mapPageSv39 pt a a permKdata noPid

/-! ## Copying and freeing -/

/-- The number of entries of a table. -/
def numPtes (cfg : Config) : ℕ := cfg.pageSize / cfg.regSz

/-- The virtual address `copy_page_table` computes from three indices; they are
    `int`s, and so is the value before it is widened. -/
def copyVa (cfg : Config) (vpn2 vpn1 vpn0 : ℕ) : ℕ :=
  cfg.reg (int32 (vpn2 * 2 ^ 30 ||| vpn1 * 2 ^ 21 ||| vpn0 * 2 ^ 12))

/-- `copy_page_table`. -/
def copyPageTable (dst src pid : ℕ) : KM cfg Unit := do
  if cfg.mmu then
    (List.range (numPtes cfg)).forM fun vpn2 => do
      let e2 := (← get).pte (src + 8 * vpn2)
      if isValid e2 then
        let src2 := pteToPhys e2
        (List.range (numPtes cfg)).forM fun vpn1 => do
          let e1 := (← get).pte (src2 + 8 * vpn1)
          if isValid e1 then
            let src3 := pteToPhys e1
            (List.range (numPtes cfg)).forM fun vpn0 => do
              let e := (← get).pte (src3 + 8 * vpn0)
              if isValid e && isUser e then
                mapPageSv39 dst (pteToPhys e) (copyVa cfg vpn2 vpn1 vpn0) (permMask e) pid

/-- `free_page_table_r`, for a table of a level. The recursion ends with the
    levels of the tables that the kernel builds; below them it overflows the
    kernel stack. -/
def freePageTableR : ℕ → ℕ → ℕ → KM cfg Unit
  | 0, _, _ => throw .fault
  | fuel + 1, level, pt => do
    (List.range (numPtes cfg)).forM fun n => do
      let e := (← get).pte (pt + 8 * n)
      if isNonleaf e then
        freePageTableR fuel (level + 1) (pteToPhys e)
        if level < 2 then releasePage (pteToPhys e)
    if level = 1 then releasePage (pteToPhys ((← get).pte pt))

/-- `free_page_table`. -/
def freePageTable (pt : ℕ) : KM cfg Unit := do
  if cfg.mmu then
    freePageTableR 3 0 pt
    releasePage pt

end HobbyOs
