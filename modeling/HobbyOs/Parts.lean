import Mathlib.Data.Set.Basic
import HobbyOs.Frame
import HobbyOs.Syscall

/-!
# What a function leaves alone

The parts of a kernel that are not about scheduling (`Part`): file objects and
descriptors, pipes, the baked-in file system, and pages. For every function of
the kernel it is said which parts it may change, however it ends; all the others
are as they were (`Frame`).

Some parts are views of a table. What matters about a file object for its life
is its `Handle`; the ends of a pipe and its page are its `Ends`, and its positions
and what has gone through it another part. The position in a file belongs to none.
-/

namespace HobbyOs

open Outcome

variable {cfg : Config} {α β : Type}

/-! ## Parts -/

/-- What tells whether a file object is in use, and for what. -/
structure Handle where
  refcount : ℕ
  readable : Bool
  writable : Bool
  isPipe : Bool
  fsFile : FsPtr

/-- The handle of a file object. -/
def File.handle (f : File) : Handle := ⟨f.refcount, f.readable, f.writable, f.isPipe, f.fsFile⟩

/-- What a pipe is made of. -/
structure Ends where
  allocated : Bool
  buf : ℕ
  rf : Option FileRef
  wf : Option FileRef

/-- The ends of a pipe. -/
def Pipe.ends (q : Pipe) : Ends := ⟨q.allocated, q.buf, q.rf, q.wf⟩

/-- The positions in the ring of a pipe, and whether it is full. -/
structure Positions where
  rpos : ℕ
  wpos : ℕ
  bufFull : Bool

/-- The positions of a pipe. -/
def Pipe.positions (q : Pipe) : Positions := ⟨q.rpos, q.wpos, q.bufFull⟩

/-- The pipe that the bytes have gone through, if any. -/
def Io.pipe : Io → Option (Fin maxPipes)
  | .accepted q _ | .delivered q _ => some q
  | .store .. | .load .. => none

/-- Of what was transferred between the two kernels, nothing has gone through the pipe `i`. -/
def Skips (i : Fin maxPipes) (k k' : Kernel cfg) : Prop :=
  ∃ new, k'.io = new ++ k.io ∧ ∀ e ∈ new, e.pipe ≠ some i

theorem Skips.of_eq {i : Fin maxPipes} {k k' : Kernel cfg} (h : k'.io = k.io) : Skips i k k' :=
  ⟨[], h, by simp⟩

theorem Skips.trans {i : Fin maxPipes} {k k₁ k' : Kernel cfg} (h : Skips i k k₁) (h' : Skips i k₁ k') :
    Skips i k k' := by
  obtain ⟨new, hio, hnew⟩ := h
  obtain ⟨new', hio', hnew'⟩ := h'
  refine ⟨new' ++ new, by rw [hio', hio, List.append_assoc], fun e he => ?_⟩
  exact (List.mem_append.1 he).elim (hnew' e) (hnew e)

/-- A file of the baked-in file system as its directory lists it. -/
structure Listed (cfg : Config) where
  flags : ℕ
  name : Option (List UInt8)
  parent : Option (Fin bifsMaxDirs)
  dataquery : DataQuery cfg

/-- How a file is listed. -/
def BifsFile.listed (x : BifsFile cfg) : Listed cfg := ⟨x.flags, x.name, x.parent, x.dataquery⟩

/-- The parts of a kernel. -/
inductive Part
  /-- The file objects. -/
  | files
  /-- The handles of the file objects. -/
  | handles
  /-- The descriptors of the processes. -/
  | fds
  /-- The ends of the pipes. -/
  | ends
  /-- The positions of a pipe, and what has gone through it. -/
  | ring (i : Fin maxPipes)
  /-- The directories of the baked-in file system. -/
  | dirs
  /-- The files of it, as they are listed. -/
  | bfiles
  /-- The contents of its files. -/
  | bdata
  /-- The directory and the file of a process in `/proc`. -/
  | procfs
  /-- The table of pages. -/
  | pages
  /-- The pages of a process. -/
  | stackPages
  /-- The words of page tables. -/
  | pte
  /-- The contents of the kernel's pages. -/
  | kmem
  /-- The console. -/
  | uart

/-- The part is about pipes. -/
def Part.isPipe : Part → Bool
  | .ends | .ring _ => true
  | _ => false

/-- A process has a part in common with another one. -/
def Part.SameProc : Part → Proc cfg → Proc cfg → Prop
  | .fds, x, y => y.files = x.files
  | .procfs, x, y => y.procfsDir = x.procfsDir ∧ y.procfsNameFile = x.procfsNameFile ∧ y.piddir = x.piddir
  | .stackPages, x, y => y.stackPage = x.stackPage ∧ y.kstackPage = x.kstackPage ∧
      y.upagetable = x.upagetable
  | _, _, _ => True

/-- A kernel has a part in common with another one. -/
def Part.Same : Part → Kernel cfg → Kernel cfg → Prop
  | .files, k, k' => k'.files = k.files
  | .handles, k, k' => ∀ f, (k'.files f).handle = (k.files f).handle
  | .ends, k, k' => ∀ i, (k'.pipes i).ends = (k.pipes i).ends
  | .ring i, k, k' => (k'.pipes i).positions = (k.pipes i).positions ∧ Skips i k k'
  | .dirs, k, k' => ∀ d, k'.dirs d = k.dirs d
  | .bfiles, k, k' => ∀ j, (k'.bfiles j).listed = (k.bfiles j).listed
  | .bdata, k, k' => ∀ j, (k'.bfiles j).data = (k.bfiles j).data ∧
      (k'.bfiles j).dataquery = (k.bfiles j).dataquery
  | .pages, k, k' => k'.pages = k.pages
  | .pte, k, k' => k'.pte = k.pte
  | .kmem, k, k' => k'.kmem = k.kmem
  | .uart, k, k' => k'.uart0 = k.uart0
  | x, k, k' => ∀ q, x.SameProc (k.procs q) (k'.procs q)

namespace Part

variable {x : Part} {k k₁ k₂ : Kernel cfg}

theorem SameProc.refl (y : Proc cfg) : x.SameProc y y := by
  cases x <;> simp [SameProc]

theorem SameProc.trans {y y₁ y₂ : Proc cfg} (h : x.SameProc y y₁) (h' : x.SameProc y₁ y₂) :
    x.SameProc y y₂ := by
  cases x with
  | fds => exact Eq.trans h' h
  | procfs => exact ⟨h'.1.trans h.1, h'.2.1.trans h.2.1, h'.2.2.trans h.2.2⟩
  | stackPages => exact ⟨h'.1.trans h.1, h'.2.1.trans h.2.1, h'.2.2.trans h.2.2⟩
  | _ => trivial

/-- The ring of a pipe is the same where pipes and transfers are. -/
theorem same_ring {i : Fin maxPipes} (hp : k₁.pipes = k.pipes) (hio : k₁.io = k.io) :
    (ring i).Same k k₁ :=
  ⟨by rw [hp], .of_eq hio⟩

theorem Same.refl (k : Kernel cfg) : x.Same k k := by
  cases x with
  | ring => exact same_ring rfl rfl
  | _ => simp [Same, SameProc]

theorem Same.trans (h : x.Same k k₁) (h' : x.Same k₁ k₂) : x.Same k k₂ := by
  cases x with
  | files | pages | pte | kmem | uart => exact Eq.trans h' h
  | handles | ends | dirs | bfiles => exact fun y => (h' y).trans (h y)
  | bdata => exact fun j => ⟨(h' j).1.trans (h j).1, (h' j).2.trans (h j).2⟩
  | ring => exact ⟨h'.1.trans h.1, h.2.trans h'.2⟩
  | fds | procfs | stackPages => exact fun q => (h q).trans (h' q)

instance : IsPreorder (Kernel cfg) x.Same where
  refl := .refl
  trans _ _ _ := .trans

/-- The parts that a process is replaced in are those of the process. -/
theorem same_setProc {q : Slot cfg} {y : Proc cfg} (h : x.SameProc (k.procs q) y) :
    x.Same k (k.setProc q y) := by
  have hq : ∀ r, x.SameProc (k.procs r) ((k.setProc q y).procs r) := by
    intro r
    by_cases hr : r = q
    · subst hr
      simpa [Kernel.setProc] using h
    · simpa [Kernel.setProc, hr] using SameProc.refl (k.procs r)
  cases x with
  | fds | procfs | stackPages => exact hq
  | files | pages | pte | kmem | uart => rfl
  | handles | ends | dirs | bfiles => exact fun _ => rfl
  | bdata => exact fun _ => ⟨rfl, rfl⟩
  | ring => exact same_ring rfl rfl

end Part

/-- What the parts of a process are views of. -/
def Proc.parts (x : Proc cfg) :=
  (x.files, x.procfsDir, x.procfsNameFile, x.piddir, x.stackPage, x.kstackPage, x.upagetable)

/-- What the parts of a kernel are views of. -/
def Kernel.parts (k : Kernel cfg) :=
  (k.files, k.pipes, k.dirs, k.bfiles, k.pages, k.pte, k.kmem, k.uart0, k.procs, k.io)

theorem Part.same_of_parts {x : Part} {k k' : Kernel cfg} (h : k'.parts = k.parts) : x.Same k k' := by
  simp only [Kernel.parts, Prod.mk.injEq] at h
  obtain ⟨hf, hp, hd, hb, hg, ht, hm, hu, hq, hio⟩ := h
  cases x with
  | ring => exact same_ring hp hio
  | files => exact hf
  | handles => exact fun f => by rw [hf]
  | ends => exact fun i => by rw [hp]
  | dirs => exact fun d => by rw [hd]
  | bfiles => exact fun j => by rw [hb]
  | bdata => exact fun j => by rw [hb]; exact ⟨rfl, rfl⟩
  | pages => exact hg
  | pte => exact ht
  | kmem => exact hm
  | uart => exact hu
  | fds | procfs | stackPages =>
    intro q
    rw [hq]
    exact Part.SameProc.refl _

/-! ## Frames -/

/-- However it ends, `m` changes nothing but the parts in `S`. -/
def Frame (S : Set Part) (m : KM cfg α) : Prop := ∀ k, ∀ x ∉ S, x.Same k (final (m k))

namespace Frame

variable {S : Set Part} {m : KM cfg α} {f : α → KM cfg β}

theorem evolves {x : Part} (hm : Frame S m) (hx : x ∉ S) : Evolves x.Same m := fun k => hm k x hx

theorem pure {a : α} : Frame S (Pure.pure a : KM cfg α) := fun k _ _ => .refl k

theorem get : Frame S (MonadState.get : KM cfg _) := fun k _ _ => .refl k

theorem throw {e : Stop cfg} : Frame S (MonadExcept.throw e : KM cfg α) := fun k _ _ => .refl k

theorem modify {g : Kernel cfg → Kernel cfg} (h : ∀ k, ∀ x ∉ S, x.Same k (g k)) :
    Frame S (modifyGet fun k => (PUnit.unit, g k) : KM cfg PUnit) := h

theorem bind (hm : Frame S m) (hf : ∀ a, Frame S (f a)) : Frame S (m >>= f) := fun k _ hx =>
  (hm.evolves hx).bind (fun a => (hf a).evolves hx) k

theorem forM {l : List β} {g : β → KM cfg PUnit} (h : ∀ b, Frame S (g b)) :
    Frame S (l.forM g) := fun k _ hx =>
  Evolves.forM (fun b => (h b).evolves hx) k

theorem findSomeM {l : List β} {g : β → KM cfg (Option α)} (h : ∀ b, Frame S (g b)) :
    Frame S (l.findSomeM? g) := fun k _ hx => Evolves.findSomeM (fun b => (h b).evolves hx) k

/-- What a frame says of one state. -/
theorem here {x : Part} {k : Kernel cfg} (hm : Frame S m) (hx : x ∉ S) : x.Same k (final (m k)) := hm k x hx

/-- An update of what no part is about. -/
theorem of_rest {g : Kernel cfg → Kernel cfg} (h : ∀ k, (g k).parts = k.parts) :
    Frame S (modifyGet fun k => (PUnit.unit, g k) : KM cfg PUnit) :=
  modify fun k _ _ => Part.same_of_parts (h k)

/-- An update of a process. -/
theorem of_setProc {q : Slot cfg} {g : Kernel cfg → Proc cfg}
    (h : ∀ k, ∀ x ∉ S, x.SameProc (k.procs q) (g k)) :
    Frame S (modifyGet fun k => (PUnit.unit, k.setProc q (g k)) : KM cfg PUnit) :=
  modify fun k x hx => Part.same_setProc (h k x hx)

/-- An update of a process that no part is about. -/
theorem of_setProc_rest {q : Slot cfg} {g : Kernel cfg → Proc cfg}
    (h : ∀ k, (g k).parts = (k.procs q).parts) :
    Frame S (modifyGet fun k => (PUnit.unit, k.setProc q (g k)) : KM cfg PUnit) := by
  refine of_setProc fun k x _ => ?_
  have h := h k
  simp only [Proc.parts, Prod.mk.injEq] at h
  obtain ⟨hf, hd, hn, hp, hs, hk, hu⟩ := h
  cases x with
  | fds => exact hf
  | procfs => exact ⟨hd, hn, hp⟩
  | stackPages => exact ⟨hs, hk, hu⟩
  | _ => trivial

/-- An update of a file object. -/
theorem of_setFile {f : FileRef} {g : Kernel cfg → File} (hf : .files ∈ S) (hh : .handles ∈ S) :
    Frame S (modifyGet fun k => (PUnit.unit, k.setFile f (g k)) : KM cfg PUnit) := by
  refine modify fun k x hx => ?_
  cases x with
  | files => exact absurd hf hx
  | handles => exact absurd hh hx
  | pages | pte | kmem | uart => rfl
  | ends | dirs | bfiles => exact fun _ => rfl
  | bdata => exact fun _ => ⟨rfl, rfl⟩
  | ring => exact Part.same_ring rfl rfl
  | fds | procfs | stackPages => exact fun q => Part.SameProc.refl _

/-- An update of a file object that leaves its handle. -/
theorem of_setFile_handle {f : FileRef} {g : Kernel cfg → File} (hf : .files ∈ S)
    (hh : ∀ k, (g k).handle = (k.files f).handle) :
    Frame S (modifyGet fun k => (PUnit.unit, k.setFile f (g k)) : KM cfg PUnit) := by
  refine modify fun k x hx => ?_
  cases x with
  | files => exact absurd hf hx
  | handles =>
    intro f'
    by_cases h : f' = f
    · subst h
      simpa [Kernel.setFile] using hh k
    · simp [Kernel.setFile, h]
  | pages | pte | kmem | uart => rfl
  | ends | dirs | bfiles => exact fun _ => rfl
  | bdata => exact fun _ => ⟨rfl, rfl⟩
  | ring => exact Part.same_ring rfl rfl
  | fds | procfs | stackPages => exact fun q => Part.SameProc.refl _

/-- An update of a pipe. -/
theorem of_setPipe {i : Fin maxPipes} {g : Kernel cfg → Pipe}
    (h : .ends ∈ S ∨ ∀ k, (g k).ends = (k.pipes i).ends)
    (hr : .ring i ∈ S ∨ ∀ k, (g k).positions = (k.pipes i).positions) :
    Frame S (modifyGet fun k => (PUnit.unit, k.setPipe i (g k)) : KM cfg PUnit) := by
  refine modify fun k x hx => ?_
  cases x with
  | ends =>
    have h := h.resolve_left hx
    intro i'
    by_cases hi : i' = i
    · subst hi
      simpa [Kernel.setPipe] using h k
    · simp [Kernel.setPipe, hi]
  | ring i' =>
    refine ⟨?_, .of_eq rfl⟩
    by_cases hi : i' = i
    · subst hi
      simpa [Kernel.setPipe] using hr.resolve_left hx k
    · simp [Kernel.setPipe, hi]
  | files | pages | pte | kmem | uart => rfl
  | handles | dirs | bfiles => exact fun _ => rfl
  | bdata => exact fun _ => ⟨rfl, rfl⟩
  | fds | procfs | stackPages => exact fun q => Part.SameProc.refl _

/-- An update of a file of the baked-in file system. -/
theorem of_bfile {g : Kernel cfg → Fin bifsMaxFiles → BifsFile cfg}
    (hb : .bfiles ∈ S ∨ ∀ k j, (g k j).listed = (k.bfiles j).listed)
    (hd : .bdata ∈ S ∨ ∀ k j, (g k j).data = (k.bfiles j).data ∧
      (g k j).dataquery = (k.bfiles j).dataquery) :
    Frame S (modifyGet fun k => (PUnit.unit, { k with bfiles := g k }) : KM cfg PUnit) := by
  refine modify fun k x hx => ?_
  cases x with
  | bfiles => exact hb.resolve_left hx k
  | bdata => exact hd.resolve_left hx k
  | files | pages | pte | kmem | uart => rfl
  | handles | ends | dirs => exact fun _ => rfl
  | ring => exact Part.same_ring rfl rfl
  | fds | procfs | stackPages => exact fun q => Part.SameProc.refl _

/-- An update of what no part is about, in which bytes are transferred. -/
theorem of_log {g : Kernel cfg → Kernel cfg} (h : ∀ k, { g k with io := k.io }.parts = k.parts)
    (hl : ∀ k, ∃ new, (g k).io = new ++ k.io ∧ ∀ e ∈ new, ∀ i, e.pipe = some i → .ring i ∈ S) :
    Frame S (modifyGet fun k => (PUnit.unit, g k) : KM cfg PUnit) := by
  refine modify fun k x hx => ?_
  have hsame : x.Same k { g k with io := k.io } := Part.same_of_parts (h k)
  cases x with
  | ring i =>
    obtain ⟨new, hio, hnew⟩ := hl k
    exact ⟨hsame.1, new, hio, fun e he hi => hx (hnew e he i hi)⟩
  | _ => exact hsame

end Frame

end HobbyOs
