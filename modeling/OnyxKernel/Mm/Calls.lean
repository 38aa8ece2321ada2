import OnyxKernel.Onx.Load

/-!
# System calls on user memory

`brk`, `mmap`, `munmap` and `mprotect` of `syscall/fs_sys3/mem`, with `mmap` of `fs/devfs`. A call works
on the memory and on the three fields of the process that it reads: the root, the end of the heap and
the hint for the next mapping. What the file table and the display driver answer is part of the call.

Addresses are 64-bit numbers; `checked_add` is modelled as such, and sums that the source computes
unchecked stop the kernel when they overflow (`Call.stops`).
-/

namespace Mm

open Infra Onyx StateProg
open Onx (userBase userTop userHeapBase)

/-- The memory of a process. -/
structure UserMem where
  mm : MmState
  /-- `root_pa`, as a frame number. -/
  root : Nat
  heapBrk : Nat
  mmapBrk : Nat

abbrev CallProg := StateProg UserMem Errno

def onMm {α : Type} (p : MmProg α) : CallProg α where
  run m := ((p.run m.mm).1, { m with mm := (p.run m.mm).2 })

/-! ## Arithmetic -/

def checkedAdd (a b : Nat) : Option Nat := if a + b < 2 ^ 64 then some (a + b) else none

def pageAlignUp (n : Nat) : Option Nat := (checkedAdd n 0xFFF).map fun m => m / 4096 * 4096

def userRangeOk (addr size : Nat) : Bool :=
  match checkedAdd addr size with
  | some stop => userBase ≤ addr && stop ≤ userTop
  | none => false

/-- The entry flags for `prot`, as `sys_mmap` and `sys_mprotect` compute them. -/
def protFlags (prot : Nat) : Nat :=
  let flags := pteU ||| pteA ||| pteD ||| (if prot.testBit 0 then pteR else 0) |||
    (if prot.testBit 1 then pteW else 0) ||| (if prot.testBit 2 then pteX else 0)
  if flags &&& pteR = 0 ∧ flags &&& pteX = 0 then flags ||| pteR else flags

/-! ## `brk` -/

def userHeapSize : Nat := 64 * 1024 * 1024

/-- `PTE_V | PTE_R | PTE_W | PTE_U | PTE_A | PTE_D` -/
def heapFlags : Nat := pteV ||| pteR ||| pteW ||| pteU ||| pteA ||| pteD

/-- One round of `ensure_heap_pages`. -/
def ensureHeapPage (root va : Nat) : MmProg Unit := do
  let s ← get
  onlyIf (translateUser s root va = 0) (mapFreshPage root va heapFlags)

def ensureHeapPages (root oldBrk newBrk : Nat) : MmProg Unit :=
  if newBrk ≤ oldBrk then pure ()
  else match pageAlignUp oldBrk, pageAlignUp newBrk with
    | some va, some stop => forUpTo ((stop - va) / 4096) 0 fun j => ensureHeapPage root (va + 4096 * j)
    | _, _ => fail .range

/-- The part of `sys_brk` that gives pages back. -/
def shrinkHeap (root addr cur : Nat) : MmProg Unit :=
  match pageAlignUp addr with
  | none => fail .range
  | some start => unmap root start (cur - start)

def sysBrk (addr : Nat) : CallProg Nat := do
  let m ← get
  if addr = 0 then pure m.heapBrk
  else if addr < userHeapBase ∨ userHeapBase + userHeapSize < addr then fail .noMem
  else do
    onlyIf (addr < m.heapBrk) (onMm (shrinkHeap m.root addr m.heapBrk))
    onlyIf (m.heapBrk < addr) (onMm (ensureHeapPages m.root m.heapBrk addr))
    modify fun m => { m with heapBrk := addr }
    pure addr

/-! ## `mmap` -/

def mmapBase : Nat := 0x20000000

structure Framebuffer where
  /-- A physical address. -/
  base : Nat
  size : Nat
  deriving DecidableEq, Repr

/-- What stands behind the file descriptor of `mmap`. -/
inductive Source
  /-- `FD_TOKEN_NONE` -/
  | anon
  /-- `fd_check` refuses the descriptor. -/
  | bad (e : Errno)
  /-- A file outside of devfs. -/
  | file
  /-- A node of devfs, with the framebuffer it stands for. -/
  | device (screen : Option Framebuffer)
  deriving DecidableEq, Repr

/-- `devfs::mmap_prefix`. -/
def mmapPrefixLen : Option Framebuffer → Nat
  | none => 0
  | some fb => fb.base % 4096

def mappingSize (length skip : Nat) : Option Nat := (checkedAdd length skip).bind fun len => pageAlignUp (max len 4096)

/-- `devfs::mmap`. -/
def devfsMmap (root : Nat) (screen : Option Framebuffer) (va length flags : Nat) : MmProg Nat :=
  match screen with
  | none => fail .noSys
  | some fb => do
    let offset := fb.base % 4096
    map root va (fb.base - offset) (min length fb.size + offset) (flags ||| pteA ||| pteD)
    pure (va + offset)

/-- Where `resolve_vaddr` puts the mapping, and whether this moves the hint. -/
def chooseVaddr (addr size : Nat) (fixed : Bool) : CallProg (Nat × Bool) := do
  let m ← get
  if addr = 0 then pure (m.mmapBrk, true)
  else if addr % 4096 ≠ 0 then fail .inval
  else if fixed then do
    onMm (unmap m.root addr size)
    pure (addr, false)
  else if translateUser m.mm m.root addr ≠ 0 then pure (m.mmapBrk, true)
  else pure (addr, false)

def resolveVaddr (addr size : Nat) (fixed : Bool) (doMap : Nat → Nat → MmProg Nat) : CallProg Nat := do
  let (va, advance) ← chooseVaddr addr size fixed
  match checkedAdd va size with
  | none => fail .noMem
  | some stop =>
    if va < mmapBase ∨ userTop < stop then fail .noMem
    else do
      let m ← get
      let r ← onMm (doMap m.root va)
      onlyIf (advance = true) (modify fun m => { m with mmapBrk := va + size })
      pure r

/-- The size of the range that `mmap` reserves. -/
def mmapSize (length : Nat) : Source → Option Nat
  | .device screen => mappingSize length (mmapPrefixLen screen)
  | _ => pageAlignUp (max length 4096)

/-- What `mmap` puts into the range. -/
def mapSource (source : Source) (length size flags root va : Nat) : MmProg Nat :=
  match source with
  | .device screen => devfsMmap root screen va length flags
  | _ => do
    mapAnon root va size flags
    pure va

/-- `sys_mmap`; `MAP_FIXED` is bit 4 of the flags. -/
def sysMmap (addr length prot flags : Nat) (source : Source) : CallProg Nat :=
  if length = 0 then fail .inval
  else if (pageAlignUp (max length 4096)).isNone then fail .range
  else match source with
    | .bad e => fail e
    | .file => fail .noSys
    | _ =>
      match mmapSize length source with
      | none => fail .range
      | some size =>
        resolveVaddr addr size (flags &&& 0x10 ≠ 0) (mapSource source length size (protFlags prot))

/-! ## `munmap` and `mprotect` -/

def sysMunmap (addr length : Nat) : CallProg Nat :=
  if addr % 4096 ≠ 0 ∨ length = 0 then fail .inval
  else match pageAlignUp (max length 4096) with
    | none => fail .range
    | some size =>
      if userRangeOk addr size = false then fail .inval
      else do
        let m ← get
        onMm (unmap m.root addr size)
        pure 0

/-- One round of `sys_mprotect`. -/
def protectPage (root va flags : Nat) : MmProg Unit := do
  let s ← get
  onlyIf (translateUser s root va ≠ 0) (mapOne root va (translateUser s root va) (pteV ||| flags) 0)

def sysMprotect (addr length prot : Nat) : CallProg Nat :=
  if addr % 4096 ≠ 0 ∨ length = 0 then fail .inval
  else match pageAlignUp length with
    | none => fail .range
    | some size =>
      match checkedAdd addr size with
      | none => fail .inval
      | some stop => do
        let m ← get
        onMm (forUpTo ((stop - addr) / 4096) 0 fun j =>
          protectPage m.root (addr + 4096 * j) (protFlags prot))
        pure 0

/-! ## Calls -/

inductive Call
  | brk (addr : Nat)
  | mmap (addr length prot flags : Nat) (source : Source)
  | munmap (addr length : Nat)
  | mprotect (addr length prot : Nat)
  deriving DecidableEq, Repr

def Call.prog : Call → CallProg Nat
  | brk addr => sysBrk addr
  | mmap addr length prot flags source => sysMmap addr length prot flags source
  | munmap addr length => sysMunmap addr length
  | mprotect addr length prot => sysMprotect addr length prot

def Call.run (c : Call) (m : UserMem) : UserMem := (c.prog.run m).2

/-- `mmap` gets as far as `resolve_vaddr`, with this size. -/
def resolves (length : Nat) : Source → Option Nat
  | .bad _ => none
  | .file => none
  | source =>
    if length = 0 ∨ (pageAlignUp (max length 4096)).isNone then none else mmapSize length source

/-- The call stops the kernel at an overflow: `cur - from` of `sys_brk`, and `va += 4096` of an `unmap`
at the end of the address space. -/
def Call.stops (m : UserMem) : Call → Bool
  | brk addr =>
    userHeapBase ≤ addr && addr ≤ userHeapBase + userHeapSize && addr < m.heapBrk &&
      (pageAlignUp addr).any (m.heapBrk < ·)
  | mmap addr length _ flags source =>
    flags &&& 0x10 ≠ 0 && addr ≠ 0 && addr % 4096 = 0 &&
      (resolves length source).any fun size => (checkedAdd addr size).isNone
  | _ => false

/-! ## The programs as parts of calls -/

section

variable {α : Type} {p : MmProg α} {m : UserMem}

theorem wp_onMm {Q : α → UserMem → Prop} {E : Errno → UserMem → Prop} : wp (onMm p) Q E m ↔
      wp p (fun a t => Q a { m with mm := t }) (fun e t => E e { m with mm := t }) m.mm := by
  simp only [wp, onMm]
  cases hp : p.run m.mm with
  | mk r t => cases r <;> rfl

end

end Mm
