import OnyxKernel.Syscall.UserMemory
import OnyxKernel.Vfs.ReadWrite

/-!
# How many bytes a file system moves

The loops of the file systems below `read` and `write`, with the arithmetic they do on positions and lengths:
`onyxfs::read` and `onyxfs::write`, `fat32::read`, the clamps of `procfs` and of the framebuffers, the sectors
of `/dev/blkN` and the buffer of `/dev/hvc0`. What stands on a disk or arrives from a device is an answer here.

Each of them ends without leaving a type, and none moves more than it was asked for. That is what makes the
plain `fd.pos + read_n` of `read` safe.
-/

namespace Syscall

open Onyx Checked

/-- A count that was returned is at most `len`. -/
def AtMost (len : Nat) (r : Except Errno Nat) : Prop := ∀ n, r = .ok n → n ≤ len

theorem atMost_error {len : Nat} {e : Errno} : AtMost len (.error e) := nofun

theorem atMost_ok {len n : Nat} (h : n ≤ len) : AtMost len (.ok n) := by
  rintro m ⟨⟩
  exact h

/-! ## OnyxFS -/

/-- What the disk says about a file: its size, whether it has an indirect block, and for a block number
whether a block stands there and can be read. -/
structure OnyxFile where
  size : Nat
  indirect : Bool
  block : Nat → Except Errno Bool
  /-- For `write`: the block was found or allocated, and the bytes were stored. -/
  store : Nat → Except Errno Unit
  /-- For `write`: `write_inode` and `journal_commit`. -/
  finish : Except Errno Unit

namespace OnyxFile

variable (f : OnyxFile)

/-- The block of a number, as `read` looks for it. -/
def locate (idx : Nat) : Option (Except Errno Bool) :=
  if idx < 10 then some (f.block idx)
  else do
    let ind ← sub idx 10
    if f.indirect = false ∨ 1024 ≤ ind then return .ok false
    return f.block idx

/-- The loop of `onyxfs::read`. -/
def readLoop : (fuel idx off remaining total : Nat) → Option (Except Errno Nat)
  | 0, _, _, _, _ => none
  | fuel + 1, idx, off, remaining, total =>
    if remaining = 0 then some (.ok total)
    else do
      match ← f.locate idx with
      | .error e => return .error e
      | .ok false => return .ok total
      | .ok true =>
        let room ← sub 4096 (off % 4096)
        let chunk := min room remaining
        let total ← add 32 total chunk
        let off ← add 32 off chunk
        let remaining ← sub remaining chunk
        let idx ← add 32 idx 1
        readLoop fuel idx off remaining total

def read (off len : Nat) : Option (Except Errno Nat) :=
  let fileSize := min f.size (2 ^ 32 - 1)
  let remaining := min len (fileSize - off)
  f.readLoop (remaining + 1) (off / 4096) off remaining 0

/-- The test of `onyxfs::write` that a block number can be reached. -/
def inReach (idx : Nat) : Option Bool :=
  if idx < 10 then some true
  else do
    let ind ← sub idx 10
    return ind < 1024

/-- The loop of `onyxfs::write`. -/
def writeLoop : (fuel off remaining written : Nat) → Option (Except Errno Nat)
  | 0, _, _, _ => none
  | fuel + 1, off, remaining, written =>
    if remaining = 0 then some (.ok written)
    else do
      match ← inReach (off / 4096) with
      | false => return .ok written
      | true =>
        match f.store (off / 4096) with
        | .error e => return .error e
        | .ok () =>
          let room ← sub 4096 (off % 4096)
          let chunk := min room remaining
          let written ← add 32 written chunk
          let off ← add 32 off chunk
          let remaining ← sub remaining chunk
          writeLoop fuel off remaining written

/-- `onyxfs::write`; the end of the bytes is computed with `wrapping_add`. -/
def write (off len : Nat) : Option (Except Errno Nat) := do
  match ← f.writeLoop (len + 1) off len 0 with
  | .error e => return .error e
  | .ok written => return f.finish.map fun _ => written

variable {f}

theorem locate_fine (idx : Nat) : Fine (f.locate idx) fun r => r = .ok true → idx < 1034 := by
  refine fine_ite (fun h => fine_some fun _ => by omega) fun h => ?_
  refine (fine_sub (by omega)).bind fun ind hind => ?_
  refine fine_ite (fun _ => fine_pure nofun) fun h' => fine_pure fun _ => ?_
  omega

/-- A block is only there below number 1034, so that its number can be counted up. -/
theorem readLoop_fine {len : Nat} (hlen : len < 2 ^ 32) :
    ∀ fuel idx off remaining total, remaining < fuel → off + remaining < 2 ^ 32 →
      total + remaining ≤ len → Fine (f.readLoop fuel idx off remaining total) (AtMost len)
  | 0, _, _, _, _, hfuel, _, _ => by omega
  | fuel + 1, idx, off, remaining, total, hfuel, hoff, htotal => by
    refine fine_ite (fun _ => fine_some (atMost_ok (by omega))) fun hpos => ?_
    refine (locate_fine idx).bind fun r hidx => ?_
    rcases r with e | _ | _
    · exact fine_pure atMost_error
    · exact fine_pure (atMost_ok (by omega))
    · have hidx := hidx rfl
      refine (fine_sub (a := 4096) (b := off % 4096) (by omega)).bind fun room hroom => ?_
      refine (fine_add (by omega)).bind fun total' htotal' => ?_
      refine (fine_add (by omega)).bind fun off' hoff' => ?_
      refine (fine_sub (by omega)).bind fun remaining' hrem' => ?_
      refine (fine_add (by omega)).bind fun idx' _ => ?_
      exact readLoop_fine hlen fuel idx' off' remaining' total' (by omega) (by omega) (by omega)

theorem read_fine {off len : Nat} (hlen : len < 2 ^ 32) (hoff : off < 2 ^ 32) : Fine (f.read off len) (AtMost len) :=
  readLoop_fine hlen _ _ _ _ _ (by omega) (by omega) (by omega)

theorem inReach_fine (idx : Nat) : Fine (inReach idx) fun b => b = true → idx < 1034 := by
  refine fine_ite (fun h => fine_some fun _ => by omega) fun h => ?_
  refine (fine_sub (by omega)).bind fun ind hind => fine_pure fun hlt => ?_
  have := of_decide_eq_true hlt
  omega

/-- Within reach the offset is far from the end of `u32`, whatever it began with. -/
theorem writeLoop_fine {len : Nat} (hlen : len < 2 ^ 32) :
    ∀ fuel off remaining written, remaining < fuel → written + remaining ≤ len →
      Fine (f.writeLoop fuel off remaining written) (AtMost len)
  | 0, _, _, _, hfuel, _ => by omega
  | fuel + 1, off, remaining, written, hfuel, hwritten => by
    refine fine_ite (fun _ => fine_some (atMost_ok (by omega))) fun hpos => ?_
    refine (inReach_fine (off / 4096)).bind fun r hidx => ?_
    cases r with
    | false => exact fine_pure (atMost_ok (by omega))
    | true =>
      have hidx := hidx rfl
      cases f.store (off / 4096) with
      | error e => exact fine_pure atMost_error
      | ok _ =>
        refine (fine_sub (a := 4096) (b := off % 4096) (by omega)).bind fun room hroom => ?_
        refine (fine_add (by omega)).bind fun written' hwritten' => ?_
        refine (fine_add (by omega)).bind fun off' hoff' => ?_
        refine (fine_sub (by omega)).bind fun remaining' hrem' => ?_
        exact writeLoop_fine hlen fuel off' remaining' written' (by omega) (by omega)

theorem write_fine {off len : Nat} (hlen : len < 2 ^ 32) : Fine (f.write off len) (AtMost len) := by
  refine (writeLoop_fine hlen _ off len 0 (by omega) (by omega)).bind fun r hr => ?_
  cases r with
  | error e => exact fine_pure atMost_error
  | ok written =>
    refine fine_pure ?_
    cases f.finish with
    | error e => exact atMost_error
    | ok _ => exact atMost_ok (hr written rfl)

end OnyxFile

/-! ## FAT32 -/

/-- What a FAT32 volume says: its clusters, the first sector of each and the chain, and which sectors can be
read. `mount` refuses other cluster sizes. -/
structure FatVolume where
  spc : Nat
  spc_pos : 0 < spc
  spc_le : spc ≤ 128
  clusterToLba : Nat → Nat
  clusterToLba_lt : ∀ cluster, clusterToLba cluster < 2 ^ 40
  readSec : Nat → Except Errno Unit
  /-- The next cluster, unless the chain ends or goes wrong there. -/
  next : Nat → Option Nat

namespace FatVolume

variable (v : FatVolume)

/-- The sectors of a cluster in `fat32::read`. -/
def sectorLoop (cluster : Nat) : (fuel remain secOff secIdx total : Nat) → Option (Except Errno Nat)
  | 0, _, _, _, _ => none
  | fuel + 1, remain, secOff, secIdx, total =>
    if remain = 0 then some (.ok total)
    else do
      let inSec ← sub 512 secOff
      let chunk := min remain inSec
      let lba ← add 64 (v.clusterToLba cluster) secIdx
      match v.readSec lba with
      | .error e => return .error e
      | .ok () =>
        let total ← add 32 total chunk
        let remain ← sub remain chunk
        let secIdx ← add 32 secIdx 1
        sectorLoop cluster fuel remain 0 secIdx total

/-- What `fat32::read` takes from one cluster: the position and the count after it. -/
def readCluster (clusterBytes endByte cluster curPos clusterBase total : Nat) : Option (Except Errno (Nat × Nat)) := do
  let clusterEnd ← add 64 clusterBase clusterBytes
  if curPos < clusterEnd ∧ curPos < endByte then
    let relStart ← sub curPos clusterBase
    let want ← sub endByte curPos
    let avail ← sub clusterBytes (relStart % 2 ^ 32)
    let remain := min (want % 2 ^ 32) avail
    match ← v.sectorLoop cluster (remain + 1) remain (relStart % 2 ^ 32 % 512) (relStart % 2 ^ 32 / 512) total with
    | .error e => return .error e
    | .ok total' =>
      let moved ← sub total' total
      let curPos ← add 64 curPos moved
      return .ok (curPos, total')
  else return .ok (curPos, total)

/-- The loop of `fat32::read`. -/
def readLoop (clusterBytes endByte : Nat) : (fuel cluster curPos clusterBase total : Nat) → Option (Except Errno Nat)
  | 0, _, _, _, _ => none
  | fuel + 1, cluster, curPos, clusterBase, total => do
    match ← v.readCluster clusterBytes endByte cluster curPos clusterBase total with
    | .error e => return .error e
    | .ok (curPos, total) =>
      if endByte ≤ curPos then return .ok total
      let clusterBase ← add 64 clusterBase clusterBytes
      match v.next cluster with
      | none => return .ok total
      | some cluster => readLoop clusterBytes endByte fuel cluster curPos clusterBase total

def read (cluster off len : Nat) : Option (Except Errno Nat) :=
  if len = 0 ∨ cluster = 0 then some (.ok 0)
  else do
    let clusterBytes ← mul 32 v.spc 512
    let endByte ← add 64 off len
    v.readLoop clusterBytes endByte (endByte / 512 + 1) cluster off 0 0

variable {v}

theorem sectorLoop_fine {cluster : Nat} :
    ∀ fuel remain secOff secIdx total, remain < fuel → secOff < 512 → total + remain < 2 ^ 32 →
      secIdx + remain < 2 ^ 32 →
      Fine (v.sectorLoop cluster fuel remain secOff secIdx total) fun r => ∀ n, r = .ok n → n = total + remain
  | 0, _, _, _, _, hfuel, _, _, _ => by omega
  | fuel + 1, remain, secOff, secIdx, total, hfuel, hsec, htotal, hidx => by
    refine fine_ite (fun h0 => fine_some ?_) fun hpos => ?_
    · rintro n ⟨⟩
      omega
    refine (fine_sub hsec.le).bind fun inSec hin => ?_
    have hlba := v.clusterToLba_lt cluster
    refine (fine_add (by omega)).bind fun lba _ => ?_
    cases v.readSec lba with
    | error e => exact fine_pure nofun
    | ok _ =>
      refine (fine_add (by omega)).bind fun total' htotal' => ?_
      refine (fine_sub (by omega)).bind fun remain' hrem' => ?_
      refine (fine_add (by omega)).bind fun secIdx' hidx' => ?_
      refine (sectorLoop_fine fuel remain' 0 secIdx' total' (by omega) (by omega) (by omega)
        (by omega)).mono fun r hr n hn => ?_
      have := hr n hn
      omega

/-- Where a read stands: the count is what the position has moved, and the cluster begins before it. -/
structure Walk (clusterBytes off len curPos clusterBase total : Nat) : Prop where
  bytes_ge : 512 ≤ clusterBytes
  bytes_le : clusterBytes ≤ 2 ^ 16
  off_lt : off < 2 ^ 32
  len_lt : len < 2 ^ 32
  moved : off + total = curPos
  base_le : clusterBase ≤ curPos

theorem readCluster_fine {clusterBytes off len cluster curPos clusterBase total : Nat}
    (h : Walk clusterBytes off len curPos clusterBase total) (hlt : curPos < off + len) :
    Fine (v.readCluster clusterBytes (off + len) cluster curPos clusterBase total) fun r =>
      ∀ p, r = .ok p → p.1 ≤ off + len ∧ off + p.2 = p.1 ∧
        (p.1 < off + len → clusterBase + clusterBytes ≤ p.1) := by
  obtain ⟨hge, hle, hoff, hlen, hmoved, hbase⟩ := h
  refine (fine_add (by omega)).bind fun clusterEnd hend => fine_ite (fun hin => ?_) fun hout => ?_
  · refine (fine_sub hbase).bind fun relStart hrel => ?_
    have hsmall : relStart % 2 ^ 32 = relStart := Nat.mod_eq_of_lt (by omega)
    refine (fine_sub hlt.le).bind fun want hwant => ?_
    have hwant' : want % 2 ^ 32 = want := Nat.mod_eq_of_lt (by omega)
    refine (fine_sub (by omega)).bind fun avail havail => ?_
    refine (sectorLoop_fine _ _ _ _ _ (by omega) (by omega) (by omega) (by omega)).bind fun r hr => ?_
    cases r with
    | error e => exact fine_pure nofun
    | ok total' =>
      have htotal := hr total' rfl
      refine (fine_sub (by omega)).bind fun moved hmv => ?_
      refine (fine_add (by omega)).bind fun curPos' hcur => fine_pure ?_
      rintro p ⟨⟩
      omega
  · refine fine_pure ?_
    rintro p ⟨⟩
    omega

theorem readLoop_fine {clusterBytes off len : Nat} :
    ∀ fuel cluster curPos clusterBase total, Walk clusterBytes off len curPos clusterBase total →
      curPos < off + len → off + len < clusterBase + fuel * 512 →
      Fine (v.readLoop clusterBytes (off + len) fuel cluster curPos clusterBase total) (AtMost len)
  | 0, _, _, _, _, h, hlt, hfuel => by
    have := h.base_le
    omega
  | fuel + 1, cluster, curPos, clusterBase, total, h, hlt, hfuel => by
    refine (readCluster_fine h hlt).bind fun r hr => ?_
    cases r with
    | error e => exact fine_pure atMost_error
    | ok p =>
      obtain ⟨hend, hmoved, hbase⟩ := hr p rfl
      obtain ⟨hge, hle, hoff, hlen, -, hb⟩ := h
      refine fine_ite (fun _ => fine_pure (atMost_ok (by omega))) fun hlt' => ?_
      refine (fine_add (by omega)).bind fun base hbase' => ?_
      cases v.next cluster with
      | none => exact fine_pure (atMost_ok (by omega))
      | some next =>
        exact readLoop_fine fuel next p.1 base p.2 ⟨hge, hle, hoff, hlen, hmoved, by omega⟩ (by omega) (by omega)

theorem read_fine {cluster off len : Nat} (hoff : off < 2 ^ 32) (hlen : len < 2 ^ 32) :
    Fine (v.read cluster off len) (AtMost len) := by
  refine fine_ite (fun _ => fine_some (atMost_ok (Nat.zero_le _))) fun h => ?_
  have hpos := v.spc_pos
  have hle := v.spc_le
  refine (fine_mul (by omega)).bind fun clusterBytes hbytes => ?_
  refine (fine_add (by omega)).bind fun endByte hend => ?_
  rw [hend]
  exact readLoop_fine _ cluster off 0 0 ⟨by omega, by omega, hoff, hlen, rfl, Nat.zero_le _⟩ (by omega) (by omega)

end FatVolume

/-! ## Devices -/

/-- The sectors of `read_multi` and `write_multi`. -/
def multi (sector : Nat → Except Errno Unit) (lba : Nat) : (left i : Nat) → Option (Except Errno Unit)
  | 0, _ => some (.ok ())
  | left + 1, i => do
    let here ← add 64 lba i
    match sector here with
    | .error e => return .error e
    | .ok () => multi sector lba left (i + 1)

/-- `blk::read` and `blk::write` with `sector_range`. -/
def blkMove (sector : Nat → Except Errno Unit) (offset len : Nat) : Option (Except Errno Nat) :=
  if offset % 512 ≠ 0 then some (.error .inval)
  else if len / 512 = 0 then some (.ok 0)
  else do
    match ← multi sector (offset / 512) (len / 512) 0 with
    | .error e => return .error e
    | .ok () =>
      let moved ← mul 32 (len / 512) 512
      return .ok moved

/-- `G_CON` as far as a transfer reads it, with the length of the next buffer of the host. -/
structure Hvc where
  rxLen : Nat
  rxOffset : Nat
  rxOffset_le : rxOffset ≤ rxLen
  rxLen_le : rxLen ≤ 4096
  arrived : Option Nat
  txBusy : Bool

/-- The end of `read_locked`: the bytes taken from the buffer at hand. -/
def hvcTake (rxLen rxOffset len : Nat) : Option (Except Errno Nat) := do
  let left ← sub rxLen rxOffset
  let count := min len left
  let _ ← add 64 rxOffset count
  return if count = 0 then .error .again else .ok count

def Hvc.read (c : Hvc) (len : Nat) : Option (Except Errno Nat) :=
  if len = 0 then some (.ok 0)
  else if c.rxOffset = c.rxLen then
    match c.arrived with
    | none => some (.error .again)
    | some n => hvcTake (min n 4096) 0 len
  else hvcTake c.rxLen c.rxOffset len

/-- What stands behind an inode of devfs. -/
inductive DevNode
  /-- The bytes that a side of a pair holds, and the room it has. -/
  | pty (used free : Except Errno Nat)
  | blk (load store : Nat → Except Errno Unit)
  | hvc (console : Hvc)
  | fb (size : Nat)
  | other

def DevNode.read : DevNode → (offset len : Nat) → Option (Except Errno Nat)
  | pty used _, _, len => some (used.map (min len))
  | blk load _, offset, len => blkMove load offset len
  | hvc console, _, len => console.read len
  | fb size, offset, len => some (.ok (min len (size - offset)))
  | other, _, _ => some (.error .noSys)

def DevNode.write : DevNode → (offset len : Nat) → Option (Except Errno Nat)
  | pty _ free, _, len => some (free.map (min len))
  | blk _ store, offset, len => blkMove store offset len
  | hvc console, _, len =>
    if len = 0 then some (.ok 0)
    else if console.txBusy then some (.error .again)
    else some (.ok (min len 4096))
  | fb size, offset, len => some (.ok (min len (size - offset)))
  | other, _, _ => some (.error .noSys)

variable {sector : Nat → Except Errno Unit}

theorem multi_fine {lba : Nat} : ∀ left i, lba + i + left < 2 ^ 64 → Fine (multi sector lba left i) fun _ => True
  | 0, _, _ => fine_some trivial
  | left + 1, i, h => by
    refine (fine_add (by omega)).bind fun s _ => ?_
    cases sector s with
    | error e => exact fine_pure trivial
    | ok _ => exact multi_fine left (i + 1) (by omega)

variable {offset len : Nat}

theorem blkMove_fine (hoff : offset < 2 ^ 32)
    (hlen : len < 2 ^ 32) : Fine (blkMove sector offset len) (AtMost len) := by
  refine fine_ite (fun _ => fine_some atMost_error) fun _ => ?_
  refine fine_ite (fun _ => fine_some (atMost_ok (Nat.zero_le _))) fun _ => ?_
  refine (multi_fine (len / 512) 0 (by omega)).bind fun r _ => ?_
  cases r with
  | error e => exact fine_pure atMost_error
  | ok _ =>
    refine (fine_mul (by omega)).bind fun moved hmoved => fine_pure (atMost_ok ?_)
    omega

theorem hvcTake_fine {rxLen rxOffset len : Nat} (hle : rxOffset ≤ rxLen) (hlen : rxLen ≤ 4096) :
    Fine (hvcTake rxLen rxOffset len) (AtMost len) := by
  refine (fine_sub hle).bind fun left hleft => ?_
  refine (fine_add (by omega)).bind fun _ _ => fine_pure ?_
  split
  · exact atMost_error
  · exact atMost_ok (min_le_left _ _)

theorem Hvc.read_fine (c : Hvc) (len : Nat) : Fine (c.read len) (AtMost len) := by
  refine fine_ite (fun _ => fine_some (atMost_ok (Nat.zero_le _))) fun _ => fine_ite (fun _ => ?_) fun _ => ?_
  · cases c.arrived with
    | none => exact fine_some atMost_error
    | some n => exact hvcTake_fine (Nat.zero_le _) (min_le_right _ _)
  · exact hvcTake_fine c.rxOffset_le c.rxLen_le

theorem atMost_map_min {len : Nat} (r : Except Errno Nat) : AtMost len (r.map (min len)) := by
  cases r with
  | error e => exact atMost_error
  | ok n => exact atMost_ok (min_le_left _ _)

theorem DevNode.read_fine (node : DevNode) (hoff : offset < 2 ^ 32)
    (hlen : len < 2 ^ 32) : Fine (node.read offset len) (AtMost len) := by
  cases node with
  | pty used free => exact fine_some (atMost_map_min used)
  | blk load store => exact blkMove_fine hoff hlen
  | hvc console => exact console.read_fine len
  | fb size => exact fine_some (atMost_ok (min_le_left _ _))
  | other => exact fine_some atMost_error

theorem DevNode.write_fine (node : DevNode) (hoff : offset < 2 ^ 32)
    (hlen : len < 2 ^ 32) : Fine (node.write offset len) (AtMost len) := by
  cases node with
  | pty used free => exact fine_some (atMost_map_min free)
  | blk load store => exact blkMove_fine hoff hlen
  | hvc console =>
    refine fine_ite (fun _ => fine_some (atMost_ok (Nat.zero_le _))) fun _ => ?_
    exact fine_ite (fun _ => fine_some atMost_error) fun _ => fine_some (atMost_ok (min_le_left _ _))
  | fb size => exact fine_some (atMost_ok (min_le_left _ _))
  | other => exact fine_some atMost_error

/-! ## All of them -/

/-- What the file systems find for a descriptor or an inode. -/
structure Backends where
  /-- `check_v2`. -/
  v2 : Vfs.VfsFd → Bool
  /-- `read_inode`. -/
  onyx : Vfs.VfsFd → Except Errno OnyxFile
  fat : Vfs.VfsFd → FatVolume
  /-- The length of a generated text. -/
  proc : Nat → Except Errno Nat
  chans : Nat → Ipc.Channel
  pid : Nat
  dev : Nat → DevNode

namespace Backends

variable (b : Backends)

/-- The file systems' part of `read`. -/
def readFrom (fd : Vfs.VfsFd) (len : Nat) : Option (Except Errno Nat) :=
  match fd.fs with
  | .onyx =>
    match b.onyx fd with
    | .error e => some (.error e)
    | .ok f => f.read fd.pos len
  | .fat32 => (b.fat fd).read fd.ino fd.pos len
  | .proc => some ((b.proc fd.ino).map fun size => min len (size - fd.pos))
  | .ipc => some ((Vfs.ipcfsRead b.chans b.pid fd.ino len).1.map List.length)
  | .devfs => (b.dev fd.ino).read fd.pos len
  | .none => some (.error .inval)

/-- The file systems' part of `write`. -/
def writeTo (fd : Vfs.VfsFd) (data : List UInt8) : Option (Except Errno Nat) :=
  match fd.fs with
  | .onyx =>
    if b.v2 fd = false then some (.error .noSys)
    else
      match b.onyx fd with
      | .error e => some (.error e)
      | .ok f => f.write fd.pos data.length
  | .proc => some (.error .perm)
  | .ipc => some (Vfs.ipcfsWrite b.chans b.pid fd.ino data).1
  | .devfs => (b.dev fd.ino).write fd.pos data.length
  | .fat32 | .none => some (.error .noSys)

theorem length_readLoop (capacity : Nat) (buf : Nat → UInt8) (head : UInt32) (n : Nat) :
    (Ipc.readLoop capacity buf head n).1.length = n := by
  induction n generalizing head with
  | zero => rfl
  | succ n ih => simp [Ipc.readLoop, ih]

theorem ipcfsRead_atMost (chans : Nat → Ipc.Channel) (pid ino len : Nat) :
    AtMost len ((Vfs.ipcfsRead chans pid ino len).1.map List.length) := by
  unfold Vfs.ipcfsRead
  split_ifs
  · exact atMost_error
  · unfold Ipc.Channel.recv
    dsimp only
    split_ifs
    · exact atMost_error
    · exact atMost_error
    · exact atMost_ok (Nat.zero_le _)
    · refine atMost_ok ?_
      rw [length_readLoop]
      exact min_le_left _ _

variable {b}

theorem readFrom_fine {fd : Vfs.VfsFd} {len : Nat} (hpos : fd.pos < 2 ^ 32) (hlen : len < 2 ^ 32) :
    Fine (b.readFrom fd len) (AtMost len) := by
  unfold readFrom
  cases fd.fs with
  | onyx =>
    cases b.onyx fd with
    | error e => exact fine_some atMost_error
    | ok f => exact f.read_fine hlen hpos
  | fat32 => exact (b.fat fd).read_fine hpos hlen
  | proc =>
    refine fine_some ?_
    cases b.proc fd.ino with
    | error e => exact atMost_error
    | ok size => exact atMost_ok (min_le_left _ _)
  | ipc => exact fine_some (ipcfsRead_atMost _ _ _ _)
  | devfs => exact (b.dev fd.ino).read_fine hpos hlen
  | none => exact fine_some atMost_error

theorem writeTo_fine {fd : Vfs.VfsFd} {data : List UInt8} (hpos : fd.pos < 2 ^ 32)
    (hlen : data.length < 2 ^ 32) : Fine (b.writeTo fd data) fun _ => True := by
  unfold writeTo
  cases fd.fs with
  | onyx =>
    refine fine_ite (fun _ => fine_some trivial) fun _ => ?_
    cases b.onyx fd with
    | error e => exact fine_some trivial
    | ok f => exact (OnyxFile.write_fine hlen).mono fun _ _ => trivial
  | devfs => exact ((b.dev fd.ino).write_fine hpos hlen).mono fun _ _ => trivial
  | proc | ipc | fat32 | none => exact fine_some trivial

end Backends

end Syscall
