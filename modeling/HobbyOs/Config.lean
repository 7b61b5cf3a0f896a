import Mathlib.Algebra.Group.Int.Defs
import Mathlib.Algebra.GroupWithZero.Nat

/-!
# Builds of the kernel

The kernel is built for several machines (`include/machine/*.h`). What the
headers, the linker script and the command line fix for a build is a `Config`:
the sizes of the tables and of a page, the presence of an MMU, and where the
linker put things. The constants that are the same in every build are plain
definitions.

Words of the machine are natural numbers below `2 ^ xlen`; C's fixed-width
types are natural numbers reduced where the code relies on their width (`u32`,
`int32`).
-/

namespace HobbyOs

/-! ## Constants -/

/-- `MAX_PROC_FDS`: the open files of a process. -/
abbrev maxProcFds : ℕ := 8
/-- `MAX_FILES`: the file objects of the system. -/
abbrev maxFiles : ℕ := 32
/-- `MAX_PIPES`. -/
abbrev maxPipes : ℕ := 4
/-- `BIFS_MAX_FILES`. -/
abbrev bifsMaxFiles : ℕ := 32
/-- `BIFS_MAX_DIRS`. -/
abbrev bifsMaxDirs : ℕ := 8
/-- `UART_BUF_SZ`. -/
abbrev uartBufSz : ℕ := 64
/-- `MAX_FILENAME_LEN`. -/
abbrev maxFilenameLen : ℕ := 16

instance : NeZero bifsMaxFiles := ⟨by decide⟩
instance : NeZero bifsMaxDirs := ⟨by decide⟩

/-- `TOPMOST_VIRT_PAGE`. -/
abbrev topmostVirtPage : ℕ := 0x1ff000

/-! ### Error numbers -/

abbrev ENOENT : ℕ := 2
abbrev ESRCH : ℕ := 3
abbrev EBADF : ℕ := 9
abbrev ENOMEM : ℕ := 12
abbrev EFAULT : ℕ := 14
abbrev EBUSY : ℕ := 16
abbrev EINVAL : ℕ := 22
abbrev ENFILE : ℕ := 23
abbrev EMFILE : ℕ := 24
abbrev EPIPE : ℕ := 32
abbrev ENOSYS : ℕ := 38
abbrev EBADFD : ℕ := 77
abbrev ENOBUFS : ℕ := 105

/-! ### Fixed-width integers -/

/-- The `uint32_t` of an integer. -/
def u32 (n : ℤ) : ℕ := (n % 2 ^ 32).toNat

theorem u32_add {n i : ℕ} (h : n + i < 2 ^ 32) : u32 (n + i) = n + i := by
  rw [u32]
  omega

theorem u32_pred {n : ℕ} (h : n < 2 ^ 32) (h0 : 0 < n) : u32 (n - 1) = n - 1 := by
  rw [u32]
  omega

/-- The `int32_t` of an unsigned value: the low half of the range is
    nonnegative, the upper half negative. -/
def int32 (n : ℕ) : ℤ :=
  if n % 2 ^ 32 < 2 ^ 31 then (n % 2 ^ 32 : ℕ) else (n % 2 ^ 32 : ℕ) - 2 ^ 32

/-- `-1` as a `uint32_t`: no pid. -/
abbrev noPid : ℕ := 2 ^ 32 - 1

/-- The bytes of an ASCII string, without the terminating zero. -/
def ascii (s : String) : List UInt8 := s.toByteArray.data.toList

/-! ## Configurations -/

/-- A build of the kernel. -/
structure Config where
  /-- `MAX_PROCS`. -/
  maxProcs : ℕ
  /-- `CONFIG_MMU`. -/
  mmu : Bool
  /-- `XLEN`, the width of a register: 32 or 64. -/
  xlen : ℕ
  /-- `PAGE_SIZE`. -/
  pageSize : ℕ
  /-- `MAX_PAGES`. -/
  maxPages : ℕ
  /-- `ONE_SECOND`, in ticks of the timer. -/
  oneSecond : ℕ
  /-- `user_stack_size`: a page, or 512 in the tiny-stack run. -/
  userStackSize : ℕ
  /-- `BOOT_HART_ID`. -/
  bootHartId : ℕ
  /-- `RAM_START` and the end of the paged memory. -/
  ramStart : ℕ
  memEnd : ℕ
  /-- `user_code_start`, and the pages of user code and of read-only data above
      it: `rodata_start` and `data_start` are the ends of these two ranges. -/
  userCodeStart : ℕ
  userCodePages : ℕ
  rodataPages : ℕ
  /-- `heap_start`. -/
  heapStart : ℕ
  /-- `&trap_frame` and `&paged_memory`. -/
  trapFrameAddr : ℕ
  pagedMemoryAddr : ℕ
  /-- The ranges (start, pages, permissions) and the device pages that the
      kernel's own page table maps. -/
  kernelRanges : List (ℕ × ℕ × ℕ)
  devicePages : List ℕ
  /-- The entry points of the user programs. -/
  entry : ℕ → ℕ
  /-- What `procfs_sysmem_data_func` prints: the sizes of the kernel's tables. -/
  sysmemText : List UInt8
  /-- The test script given to the init program, if any. -/
  testScript : Option (List UInt8)
  /-- A page holds a pipe buffer, and is no larger than those of Sv39. -/
  four_le_pageSize : 4 ≤ pageSize
  pageSize_le : pageSize ≤ 4096
  /-- Builds have `MAX_PROCS` 8, or 4. -/
  maxProcs_le : maxProcs ≤ 8
  /-- Memory is within the address space. -/
  memEnd_le : memEnd ≤ 2 ^ 64
  /-- With an MMU, pages are those of Sv39. -/
  pageSize_of_mmu : mmu = true → pageSize = 4096

namespace Config

variable (cfg : Config)

/-- `rodata_start`. -/
def rodataStart : ℕ := cfg.userCodeStart + cfg.userCodePages * cfg.pageSize

/-- `KERNEL_CODE_START`: 512 words of 64 bits above the start of the RAM. -/
def kernelCodeStart : ℕ := cfg.ramStart + 4096

/-- `PIPE_BUF_SIZE`. -/
def pipeBufSize : ℕ := cfg.pageSize / 4

/-- The bytes of a register (`REGSZ`, `sizeof(uintptr_t)`). -/
def regSz : ℕ := cfg.xlen / 8

/-- `PAGE_ROUND_DOWN`. -/
def pageRoundDown (a : ℕ) : ℕ := a - a % cfg.pageSize

/-- `PAGE_ROUND_UP`: the start of the page after the one of `a`, in the range of
    a register. -/
def pageRoundUp (a : ℕ) : ℕ := (cfg.pageRoundDown a + cfg.pageSize) % 2 ^ cfg.xlen

/-- Where the paged memory starts: at the first page above `heap_start`. -/
def pagesStart : ℕ := cfg.pageRoundUp cfg.heapStart

/-- `paged_memory.num_pages`: as many pages as fit. -/
def numPages : ℕ :=
  min cfg.maxPages ((cfg.memEnd - cfg.pagesStart + cfg.pageSize - 1) / cfg.pageSize)

/-- `paged_memory.pages[i].ptr`, as `init_paged_memory` sets it for good. -/
def pagePtr (i : Fin cfg.numPages) : ℕ := cfg.pagesStart + i * cfg.pageSize

/-- `USR_VIRT`: with an MMU, the low 21 bits. -/
def usrVirt (pa : ℕ) : ℕ := if cfg.mmu then pa % 2 ^ 21 else pa

/-- `USR_STK_VIRT`. -/
def usrStkVirt (pa : ℕ) : ℕ := if cfg.mmu then (pa ||| topmostVirtPage) % 2 ^ 21 else pa

/-- A value as a register. -/
def reg (n : ℤ) : ℕ := (n % 2 ^ cfg.xlen).toNat

/-- The build for the `sifive_e` machine of qemu, with addresses as a linker
    may assign them. -/
def qemuE : Config where
  maxProcs := 4
  mmu := false
  xlen := 32
  pageSize := 512
  maxPages := 32
  oneSecond := 10000000
  userStackSize := 512
  bootHartId := 0
  ramStart := 0x80000000
  memEnd := 0x80004000
  userCodeStart := 0x20010000
  userCodePages := 8
  rodataPages := 4
  heapStart := 0x80001a00
  trapFrameAddr := 0x80000800
  pagedMemoryAddr := 0x80000900
  kernelRanges := []
  devicePages := []
  entry i := 0x20010000 + 64 * i
  sysmemText := []
  testScript := none
  four_le_pageSize := by decide
  pageSize_le := by decide
  maxProcs_le := by decide
  memEnd_le := by decide
  pageSize_of_mmu := by decide

theorem qemuE_maxProcs_pos : 0 < qemuE.maxProcs := by decide

/-- The build for the HiFive1 Rev B board: it has the memory of the `sifive_e`
    machine, but more processes, and its clock is slower. -/
def hifive1Revb : Config := { qemuE with maxProcs := 8, oneSecond := 32768, maxProcs_le := by decide }

/-- The build for the `virt` machine of qemu, which has an MMU, with addresses as
    a linker may assign them. -/
def qemuVirt : Config where
  maxProcs := 8
  mmu := true
  xlen := 64
  pageSize := 4096
  maxPages := 48
  oneSecond := 10000000
  userStackSize := 4096
  bootHartId := 0
  ramStart := 0x80000000
  memEnd := 0x81000000
  userCodeStart := 0x80006000
  userCodePages := 3
  rodataPages := 2
  heapStart := 0x8000e080
  trapFrameAddr := 0x8000b100
  pagedMemoryAddr := 0x8000b800
  kernelRanges := [(0x80000000, 1, 6), (0x80001000, 5, 10), (0x80009000, 2, 2), (0x8000b000, 4, 6)]
  devicePages := [0x200b000, 0x2004000, 0xc201000, 0x10000000]
  entry i := 0x80006000 + 64 * i
  sysmemText := []
  testScript := none
  four_le_pageSize := by decide
  pageSize_le := by decide
  maxProcs_le := by decide
  memEnd_le := by decide
  pageSize_of_mmu := by decide

theorem pipeBufSize_pos : 0 < cfg.pipeBufSize :=
  Nat.div_pos cfg.four_le_pageSize (by decide)

end Config

/-- `STK_ROUND`: stacks are aligned to 16 bytes. -/
def stkRound (a : ℕ) : ℕ := a - a % 16

end HobbyOs
