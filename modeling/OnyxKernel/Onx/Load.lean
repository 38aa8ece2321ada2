import OnyxKernel.Mm.Vmm

/-!
# Loading an executable

`OnxHeader::from_bytes` of `core/src/formats` and `proc/onx/load.rs`, `proc/onx/segments.rs`. An
image is a byte string; fields of the header that nothing reads afterwards (`align`, `reserved`) are
left out.

The checks keep every sum of the source below 2^64, so lengths and addresses are naturals.
-/

namespace Onx

open Infra Onyx Mm StateProg

/-! ## The format -/

/-- `le32` and `le64`: `n` bytes from `off` on, the lowest first. -/
def le (image : List UInt8) (off n : Nat) : Nat := ((image.drop off).take n).foldr (fun b acc => b.toNat + 256 * acc) 0

structure OnxSegment where
  vaddr : Nat
  filesz : Nat
  memsz : Nat
  offset : Nat
  flags : Nat
  compressedSize : Nat
  deriving DecidableEq, Repr

/-- `OnxSegment::from_bytes_v1` of the bytes from `off` on. -/
def OnxSegment.fromBytesV1 (image : List UInt8) (off : Nat) : OnxSegment where
  vaddr := le image off 8
  filesz := le image (off + 8) 8
  memsz := le image (off + 16) 8
  offset := le image (off + 24) 4
  flags := le image (off + 28) 4
  compressedSize := 0

def OnxSegment.fromBytesV2 (image : List UInt8) (off : Nat) : OnxSegment :=
  { fromBytesV1 image off with compressedSize := le image (off + 40) 4 }

structure OnxHeader where
  entry : Nat
  flags : Nat
  segs : List OnxSegment
  deriving DecidableEq, Repr

def onxMagic : Nat := 0x31584E4F

def onxFlagsRing1 : Nat := 0x2

def onxFlagsCompressed : Nat := 0x4

def OnxHeader.fromBytes (image : List UInt8) : Option OnxHeader :=
  if image.length < 24 then none
  else if le image 0 4 ≠ onxMagic then none
  else
    let nsegs := le image 16 4
    let header (segs : List OnxSegment) : OnxHeader := { entry := le image 8 8, flags := le image 20 4, segs := segs }
    if le image 4 4 = 1 then
      if image.length < 344 then none
      else if 8 < nsegs then none
      else some (header ((List.range nsegs).map fun i => .fromBytesV1 image (24 + i * 40)))
    else if le image 4 4 = 2 then
      if image.length < 32 then none
      else if 256 < nsegs then none
      else if image.length < 32 + nsegs * 48 then none
      else some (header ((List.range nsegs).map fun i => .fromBytesV2 image (32 + i * 48)))
    else none

/-! ## Checks before anything is mapped -/

def userBase : Nat := 0x10000
def userTop : Nat := 0x40000000
def userHeapBase : Nat := 0x01000000
def userStackPages : Nat := 64
def userHeapPages : Nat := 16

def OnxSegment.inRange (seg : OnxSegment) : Bool := userBase ≤ seg.vaddr && seg.vaddr + seg.memsz ≤ userTop

def validateImage (hdr : OnxHeader) : Except Errno Unit :=
  if hdr.segs.all OnxSegment.inRange = false then .error .range
  else if hdr.entry < userBase ∨ userTop ≤ hdr.entry then .error .inval
  else if hdr.segs.any (fun s => s.vaddr ≤ hdr.entry && hdr.entry < s.vaddr + s.memsz) = false then
    .error .inval
  else .ok ()

/-! ## Segments -/

/-- The number of pages that `[va, va + size)` touches. -/
def pagesTouched (va size : Nat) : Nat :=
  if size = 0 then 0 else (va + size + 4095) / 4096 - va / 4096

/-- `(s.flags as u64) | PTE_U | PTE_A | PTE_D` -/
def OnxSegment.pteFlags (seg : OnxSegment) : Nat := seg.flags ||| pteU ||| pteA ||| pteD

/-- One round of the first loop of `map_segment_data`: the page is mapped, or gets the flags of the
segment on top of those it has. -/
def mapSegmentPage (root : Nat) (seg : OnxSegment) (pageBase : Nat) : MmProg Unit := do
  let s ← get
  if translateUser s root pageBase = 0 then mapFreshPage root pageBase seg.pteFlags
  else
    let existing := pteUserFlags s root pageBase
    if existing ||| seg.pteFlags ≠ existing then do
      let updated ← updateUserPte root pageBase seg.pteFlags
      if updated then pure () else fail .exist
    else pure ()

/-- The loops of `decompress_to_pages` that store bytes from `outVa` on, page by page. Each round
stores a byte at least. -/
def storeBytes (root : Nat) : (fuel outVa : Nat) → List UInt8 → MmProg Unit
  | 0, _, _ => pure ()
  | fuel + 1, outVa, bytes =>
    if bytes = [] then pure ()
    else do
      let s ← get
      let poff := outVa % 4096
      let chunk := min bytes.length (4096 - poff)
      writeBytes (translate s root (outVa - poff) + poff) (bytes.take chunk)
      storeBytes root fuel (outVa + chunk) (bytes.drop chunk)

/-- The outer loop of `decompress_to_pages` over the compressed bytes `src`. -/
def decompressLoop (root : Nat) (src : List UInt8) (fileEnd : Nat) : (fuel inOff outVa : Nat) → MmProg Unit
  | 0, _, _ => pure ()
  | fuel + 1, inOff, outVa =>
    if src.length ≤ inOff ∨ fileEnd ≤ outVa then pure ()
    else
      let tag := (src.getD inOff 0).toNat
      if 0x80 ≤ tag then
        if src.length ≤ inOff + 1 then fail .inval
        else do
          let left := min (tag % 0x80 + 1) (fileEnd - outVa)
          storeBytes root left outVa (List.replicate left (src.getD (inOff + 1) 0))
          decompressLoop root src fileEnd fuel (inOff + 2) (outVa + left)
      else do
        let left := min (tag + 1) (fileEnd - outVa)
        if src.length < inOff + 1 + left then fail .inval
        else do
          storeBytes root left outVa ((src.drop (inOff + 1)).take left)
          decompressLoop root src fileEnd fuel (inOff + 1 + left) (outVa + left)

/-- `decompress_to_pages`. A round takes a byte at least. -/
def decompressToPages (root : Nat) (seg : OnxSegment) (image : List UInt8) : MmProg Unit :=
  decompressLoop root ((image.drop seg.offset).take seg.compressedSize) (seg.vaddr + seg.filesz)
    seg.compressedSize 0 seg.vaddr

/-- The loop of `copy_raw_to_pages`. -/
def copyRawLoop (root : Nat) (seg : OnxSegment) (image : List UInt8) : (pages va filePos : Nat) → MmProg Unit
  | 0, _, _ => pure ()
  | pages + 1, va, filePos => do
    let s ← get
    let pageBase := va - va % 4096
    let pageVaEnd := min (pageBase + 4096) (seg.vaddr + seg.memsz)
    let copyLen := min (pageVaEnd - va) (seg.filesz - filePos)
    onlyIf (0 < copyLen)
      (writeBytes (translateUser s root pageBase + va % 4096) ((image.drop (seg.offset + filePos)).take copyLen))
    copyRawLoop root seg image pages pageVaEnd (filePos + copyLen)

def copyRawToPages (root : Nat) (seg : OnxSegment) (image : List UInt8) : MmProg Unit :=
  copyRawLoop root seg image (pagesTouched seg.vaddr seg.memsz) seg.vaddr 0

def mapSegmentData (root : Nat) (seg : OnxSegment) (image : List UInt8) (compressed : Bool) : MmProg Unit := do
  forUpTo (pagesTouched seg.vaddr seg.memsz) (seg.vaddr / 4096) fun j =>
    mapSegmentPage root seg (4096 * j)
  if compressed ∧ 0 < seg.compressedSize then decompressToPages root seg image
  else copyRawToPages root seg image

/-- The loop of `load_into` over the segments. -/
def loadSegments (root : Nat) (image : List UInt8) (compressed : Bool) : List OnxSegment → MmProg Unit
  | [] => pure ()
  | seg :: segs => do
    if seg.vaddr < userBase ∨ userTop ≤ seg.vaddr then fail .range
    else if seg.memsz < seg.filesz then fail .inval
    else
      let dataEnd := if compressed ∧ 0 < seg.compressedSize then seg.offset + seg.compressedSize
        else seg.offset + seg.filesz
      if image.length < dataEnd then fail .range
      else do
        mapSegmentData root seg image compressed
        loadSegments root image compressed segs

/-! ## The image -/

structure OnxLoadResult where
  entry : Nat
  root : Nat
  ustack : Nat
  heapBrk : Nat
  ring : Nat
  deriving DecidableEq, Repr

def kernelLeaf : Nat := pteV ||| pteR ||| pteW ||| pteX ||| pteA ||| pteD

def mapUserPage (root va : Nat) : MmProg Unit :=
  mapFreshPage root va (pteV ||| pteR ||| pteW ||| pteU ||| pteA ||| pteD)

def mapIdentity (root : Nat) : MmProg Unit :=
  forUpTo 3 0 fun i =>
    writePte root (Fin.ofNat 512 i) (pteV ||| kernelLeaf ||| ((i <<< 30) >>> 12) <<< 10)

def loadInto (root : Nat) (hdr : OnxHeader) (image : List UInt8) (compressed : Bool) : MmProg OnxLoadResult := do
  mapIdentity root
  loadSegments root image compressed hdr.segs
  forUpTo userStackPages 0 fun j => mapUserPage root (userTop - userStackPages * 4096 + 4096 * j)
  forUpTo userHeapPages 0 fun j => mapUserPage root (userHeapBase + 4096 * j)
  pure
    { entry := hdr.entry
      root := root
      ustack := userTop - 16
      heapBrk := userHeapBase
      ring := if hdr.flags &&& onxFlagsRing1 ≠ 0 then 1 else 2 }

def load (image : List UInt8) : MmProg OnxLoadResult :=
  match OnxHeader.fromBytes image with
  | none => fail .inval
  | some hdr =>
    match validateImage hdr with
    | .error e => fail e
    | .ok _ => do
      let root ← newRoot
      onError (loadInto root hdr image (hdr.flags &&& onxFlagsCompressed ≠ 0)) (destroyRoot root)

/-! ## A small image -/

def bytesOf (n : Nat) : Nat → List UInt8
  | 0 => []
  | k + 1 => UInt8.ofNat n :: bytesOf (n / 256) k

/-- One page of zeros at the bottom of the user range, mapped with `segFlags`, and the entry in it. -/
def smallImage (flags segFlags : Nat) : List UInt8 :=
  bytesOf onxMagic 4 ++ bytesOf 2 4 ++ bytesOf userBase 8 ++ bytesOf 1 4 ++ bytesOf flags 4 ++
    bytesOf 0 8 ++ bytesOf userBase 8 ++ bytesOf 0 8 ++ bytesOf 4096 8 ++ bytesOf 0 4 ++
    bytesOf segFlags 4 ++ bytesOf 0 16

def smallMemory : MmState where
  mem := fun _ _ => 0
  base := 0x80400
  total := 200
  bitmap := 0
  userPages := 0
  log := []

theorem load_smallImage : (load (smallImage onxFlagsRing1 (pteR ||| pteX))).run smallMemory =
      (.ok { entry := userBase, root := 0x80400, ustack := userTop - 16, heapBrk := userHeapBase
             ring := 1 },
        ((load (smallImage onxFlagsRing1 (pteR ||| pteX))).run smallMemory).2) :=
  run_of_toOption (by decide +kernel)

end Onx
