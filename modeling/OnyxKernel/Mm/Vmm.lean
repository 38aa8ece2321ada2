import OnyxKernel.Mm.Pmm

/-!
# Sv39 page tables

`mm/vmm`: the walk with leaf splitting, `map_one`, `map`, `map_anon`, `unmap`, `destroy_root` and the
software translations. A slot is a table and an index into it. TLB flushes have no effect here, and
the VMM lock is held throughout each function.
-/

namespace Mm

open Infra Onyx StateProg

/-! ## Entries -/

def pteV : Nat := 1
def pteR : Nat := 2
def pteW : Nat := 4
def pteX : Nat := 8
def pteU : Nat := 16
def pteA : Nat := 64
def pteD : Nat := 128

def pteLeaf : Nat := pteR ||| pteX

def ptePpnMask : Nat := (1 <<< 44 - 1) <<< 10
def pteFlagsMask : Nat := 0x3FF

/-- `(pte & PTE_PPN_MASK) >> PTE_PPN_SHIFT`: the frame an entry points to. -/
def ppnOf (pte : Nat) : Nat := (pte &&& ptePpnMask) >>> 10

/-- `sv39_l2_idx`, `sv39_l1_idx` and `sv39_l0_idx`. -/
def idx (level va : Nat) : Fin 512 := Fin.ofNat 512 (va >>> (12 + 9 * level))

def tablePte (f : Nat) : Nat := pteV ||| f <<< 10

/-- Leaf `j` of the table that replaces the leaf `pte` of a level. -/
def subLeaf (pte level : Nat) (j : Fin 512) : Nat :=
  pteV ||| (pte &&& pteFlagsMask) |||
    (((ppnOf pte <<< 12) + j.1 * 1 <<< (if level = 2 then 21 else 12)) >>> 12) <<< 10

/-! ## The walk -/

/-- `split_leaf`: a table of 512 leaves in place of one. -/
def splitLeaf (table : Nat) (i : Fin 512) (pte level : Nat) : MmProg Unit := do
  let new ← alloc
  modify fun s => s.setFrame new (subLeaf pte level)
  writePte table i (tablePte new)

/-- One round of `walk`: the table below the entry at `level`. -/
def walkLevel (va : Nat) (create : Bool) (table level : Nat) : MmProg Nat := do
  let pte ← readPte table (idx level va)
  if pte &&& pteV = 0 then
    if create then do
      let new ← alloc
      writePte table (idx level va) (tablePte new)
      pure new
    else fail .noEnt
  else if pte &&& pteLeaf ≠ 0 then
    if create then do
      splitLeaf table (idx level va) pte level
      let newPte ← readPte table (idx level va)
      pure (ppnOf newPte)
    else fail .inval
  else pure (ppnOf pte)

/-- The rounds of `walk` for `n` levels above `leafLevel`. -/
def walkDown (va : Nat) (create : Bool) (leafLevel : Nat) : (n table : Nat) → MmProg Nat
  | 0, table => pure table
  | n + 1, table => do
    let below ← walkLevel va create table (leafLevel + n + 1)
    walkDown va create leafLevel n below

def walk (root va leafLevel : Nat) (create : Bool) : MmProg (Nat × Fin 512) := do
  let table ← walkDown va create leafLevel (2 - leafLevel) root
  pure (table, idx leafLevel va)

/-! ## Translation -/

/-- The loop of the translations from the table of level `n - 1` on: the leaf that covers `va`, with
its table and level. -/
def findLeaf (mem : Nat → Fin 512 → Nat) (va : Nat) : (n table : Nat) → Option (Nat × Nat × Nat)
  | 0, _ => none
  | n + 1, table =>
    let pte := mem table (idx n va)
    if pte &&& pteV = 0 then none
    else if pte &&& pteLeaf ≠ 0 then some (table, n, pte)
    else findLeaf mem va n (ppnOf pte)

def translateIf (test : Nat → Bool) (s : MmState) (root va : Nat) : Nat :=
  if root = 0 then 0
  else match findLeaf s.mem va 3 root with
    | none => 0
    | some (_, level, pte) =>
      if test pte then ppnOf pte <<< 12 + va % 2 ^ (12 + 9 * level) else 0

def translate (s : MmState) (root va : Nat) : Nat := translateIf (fun _ => true) s root va

def translateUser (s : MmState) (root va : Nat) : Nat := translateIf (fun pte => pte &&& pteU ≠ 0) s root va

def pteUserFlags (s : MmState) (root va : Nat) : Nat :=
  if root = 0 then 0
  else match findLeaf s.mem va 3 root with
    | none => 0
    | some (_, _, pte) => if pte &&& pteU = 0 then 0 else pte &&& pteFlagsMask

def updateUserPte (root va addFlags : Nat) : MmProg Bool where
  run s :=
    if root = 0 then (.ok false, s)
    else match findLeaf s.mem va 3 root with
      | none => (.ok false, s)
      | some (table, level, pte) =>
        if pte &&& pteU = 0 ∨ level ≠ 0 then (.ok false, s)
        else (.ok true, s.setWord table (idx 0 va) (pte ||| addFlags))

/-! ## Mapping -/

def blockSize (level : Nat) : Nat := 1 <<< (12 + 9 * level)

def mapOne (root va paddr flags level : Nat) : MmProg Unit := do
  if level = 1 ∧ paddr % blockSize 1 ≠ 0 then fail .inval
  else if level = 2 ∧ paddr % blockSize 2 ≠ 0 then fail .inval
  else do
    let (table, i) ← walk root va level true
    let old ← readPte table i
    if old &&& pteV ≠ 0 ∧ old &&& pteU ≠ 0 then fail .exist
    else writePte table i (pteV ||| flags ||| (paddr >>> 12) <<< 10)

def bestLevel (va pa remaining : Nat) : Nat :=
  if blockSize 2 ≤ remaining ∧ va % blockSize 2 = 0 ∧ pa % blockSize 2 = 0 then 2
  else if blockSize 1 ≤ remaining ∧ va % blockSize 1 = 0 ∧ pa % blockSize 1 = 0 then 1
  else 0

/-- The loop of `map_impl`. A round takes a page at least, so `fuel` pages are enough. -/
def mapLoop (root flags : Nat) : (fuel va pa remaining : Nat) → MmProg Unit
  | 0, _, _, _ => pure ()
  | fuel + 1, va, pa, remaining =>
    if remaining = 0 then pure ()
    else do
      let level := bestLevel va pa remaining
      let chunk := min (blockSize level) remaining
      mapOne root va pa (flags ||| pteA ||| pteD) level
      mapLoop root flags fuel (va + chunk) (pa + chunk) (remaining - chunk)

def map (root va paddr size flags : Nat) : MmProg Unit := mapLoop root flags ((size + 4095) / 4096) va paddr size

/-! ## Unmapping -/

/-- The slot that `unmap_impl` clears for a page: at level 0 if the walk gets there, else at the
level where it stops. -/
def unmapSlot (root va : Nat) : MmProg (Nat × Fin 512) :=
  orElse (walk root va 0 false) (orElse (walk root va 1 false) (walk root va 2 false))

/-- One round of `unmap_impl`. -/
def unmapPage (root va : Nat) : MmProg Unit := do
  let (table, i) ← unmapSlot root va
  let pte ← readPte table i
  let s ← get
  onlyIf (pte &&& pteV ≠ 0 ∧ pte &&& pteU ≠ 0 ∧ isManaged s (ppnOf pte) = true) (do
    free (ppnOf pte)
    userPagesRelease 1)
  writePte table i 0

/-- `unmap`. A page whose walk fails is skipped; with three levels that does not happen. -/
def unmap (root va size : Nat) : MmProg Unit :=
  forUpTo ((size + 4095) / 4096) 0 fun j =>
    orElse (unmapPage root (va + 4096 * j)) (pure ())

def rollbackMapped (root start stop : Nat) : MmProg Unit := onlyIf (start < stop) (unmap root start (stop - start))

/-- One round of `map_anon_impl`; the call started at `start`. -/
def mapAnonPage (root start va flags : Nat) : MmProg Unit := do
  onError userPageTake (rollbackMapped root start va)
  let page ← onError alloc (do
    userPagesRelease 1
    rollbackMapped root start va)
  onError (mapOne root va (page <<< 12) (flags ||| pteA ||| pteD) 0) (do
    free page
    userPagesRelease 1
    rollbackMapped root start va)

def mapAnon (root va size flags : Nat) : MmProg Unit :=
  forUpTo ((size + 4095) / 4096) 0 fun j => mapAnonPage root va (va + 4096 * j) flags

/-- The lines that `map_user_page`, `map_segment_data` and `ensure_heap_pages` share: one page of the
budget, one page of memory, and its mapping, undone if a later step fails. -/
def mapFreshPage (root va flags : Nat) : MmProg Unit := do
  userPageTake
  let page ← onError alloc (userPagesRelease 1)
  onError (mapOne root va (page <<< 12) flags 0) (do
    free page
    userPagesRelease 1)

theorem mapAnonPage_eq (root start va flags : Nat) : mapAnonPage root start va flags =
    onError (mapFreshPage root va (flags ||| pteA ||| pteD)) (rollbackMapped root start va) := by
  have halloc : ∀ s : MmState, ((userPagesRelease 1).run s).1 = .ok () := fun _ => rfl
  have hmap : ∀ (page : Nat) (s : MmState),
      ((do free page; userPagesRelease 1 : MmProg Unit).run s).1 = .ok () := fun _ _ => rfl
  unfold mapAnonPage mapFreshPage
  rw [onError_bind]
  congr 1
  funext _
  rw [onError_bind, onError_onError _ halloc]
  congr 1
  funext page
  rw [onError_onError _ (hmap page)]
  rfl

/-! ## Roots -/

def newRoot : MmProg Nat := alloc

/-- `free_subtree` of a table of level `n - 1`. -/
def freeSubtree : (n table : Nat) → MmProg Unit
  | 0, _ => pure ()
  | n + 1, table =>
    forUpTo 512 0 fun i => do
      let pte ← readPte table (Fin.ofNat 512 i)
      let s ← get
      if pte &&& pteV = 0 then pure ()
      else if pte &&& pteLeaf ≠ 0 then
        onlyIf (pte &&& pteU ≠ 0 ∧ isManaged s (ppnOf pte) = true) (do
          userPagesRelease 1
          free (ppnOf pte))
      else onlyIf (0 < n) (do
        freeSubtree n (ppnOf pte)
        free (ppnOf pte))

def destroyRoot (root : Nat) : MmProg Unit := do
  freeSubtree 3 root
  free root

end Mm
