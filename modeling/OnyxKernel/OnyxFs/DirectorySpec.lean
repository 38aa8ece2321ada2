import OnyxKernel.OnyxFs.Ops
import OnyxKernel.OnyxFs.ResizeSpec

/-!
# Directories and new inodes keep ownership

`add_dirent` and `remove_dirent` change the contents of a directory's blocks and may give it a new
one. The lookups only read. An inode number taken by `alloc_inode` starts without blocks.
-/

namespace OnyxFs

open Infra Onyx

variable {e : Env} {d : Disk Block} {t : FsState} {alive : Nat → Bool} {ino : Nat}
variable {X Y : Nat → Prop} {x : Inode} {ents : Nat → UInt32}

/-! ## Entries -/

section

variable (hl : Layout e.toVolume)
include hl

theorem scanDirBlocks_working (h : Working e alive ino X Y x ents t) (f : Block → Option Block) :
    Does e (scanDirBlocks x f) (fun _ => Working e alive ino X Y x ents) t := by
  refine .findUpTo (Working e alive ino X Y x ents) h (fun i u _ hi hu => ?_) fun u hu => hu
  refine .mono (Q := fun _ => Working e alive ino X Y x ents) ?_
    fun r v hv => ⟨fun _ => hv, fun _ => hv⟩
  rw [dif_pos (by omega)]
  split
  · exact .pure hu
  rename_i h0
  have hptr : ∀ h : i < 10, x.ptr ents (.direct ⟨i, h⟩) = x.blocks ⟨i, h⟩ := fun _ => rfl
  refine (load_working hl hu h0 (hptr _)).bind fun _ u hu => ?_
  refine getBuf_same.bind ?_
  rintro b v ⟨-, rfl⟩
  split
  · exact .pure hu
  · exact (putBuf_working hl hu h0 (hptr _) nofun _).bind fun _ u hu => .pure hu

theorem addDirentBlock_working (h : Working e alive ino nothing nothing x ents t) (version : Nat)
    (name : List UInt8) (target : Nat) (dtype : UInt8) :
    Does e (addDirentBlock version ino x name target dtype) (fun _ => Resting e alive) t := by
  unfold addDirentBlock
  split
  · exact .fail h.stopped
  rename_i i hfind
  have h0 : x.blocks i = 0 := by simpa using List.find?_some hfind
  refine (allocZeroBlock_working hl h.takeInode (s := .direct i) rfl trivial h0 nofun).bind ?_
  rintro blk u ⟨hne, hu⟩
  have hptr : (x.setPtr blk (.direct i)).ptr ents (.direct i) = blk := by
    simp [Inode.setPtr, Inode.setBlock, Inode.ptr]
  refine (putBuf_working hl hu hne hptr nofun _).bind fun _ u hu => ?_
  exact (writeInode_working hl hu).mono fun _ _ hv => hv.resting

theorem addDirent_spec (h : Resting e alive t) (hi : alive ino = true)
    (name : List UInt8) (target : Nat) (dtype : UInt8) :
    Does e (addDirent ino name target dtype) (fun _ => Resting e alive) t := by
  obtain ⟨d, hon, hb, rfl⟩ := h
  refine (readInode_working hl hon hb hi).bind ?_
  rintro x u ⟨-, hu⟩
  refine (volume_working hu).bind fun v u hu => ?_
  refine (scanDirBlocks_working hl hu _).bind fun r u hu => ?_
  cases r with
  | some _ => exact .pure hu.resting
  | none =>
    refine (scanDirBlocks_working hl hu _).bind fun r u hu => ?_
    cases r with
    | some _ => exact .pure hu.resting
    | none => exact addDirentBlock_working hl hu _ _ _ _

theorem removeDirent_spec (h : Resting e alive t) (hi : alive ino = true)
    (name : List UInt8) : Does e (removeDirent ino name) (fun _ => Resting e alive) t := by
  obtain ⟨d, hon, hb, rfl⟩ := h
  refine (readInode_working hl hon hb hi).bind ?_
  rintro x u ⟨-, hu⟩
  refine (volume_working hu).bind fun v u hu => ?_
  refine (scanDirBlocks_working hl hu _).bind fun r u hu => ?_
  cases r with
  | some _ => exact .pure hu.resting
  | none => exact .fail hu.stopped

/-! ## New inodes -/

theorem allocInode_working (h : On e d t) (hb : BlocksOwned e.toVolume d) : Does e allocInode
      (fun ino u => ∃ ents, Working e (Function.update (live e.toVolume d) ino true) ino (· = ino)
        nothing Inode.zero ents u) t := by
  obtain ⟨b, hat⟩ := h
  refine (allocInode_spec hl hat).mono ?_
  rintro _ u ⟨i, rfl, hlt, h8, hclear, hu⟩
  have hf := hb.flight.allocInode hl hlt h8 hclear
  refine ⟨_, Function.update_self .., _, _, hu, hf.mono ?_ fun _ hc => hc, rfl, ?_, rfl⟩
  · rintro k (hk | hk)
    · exact hk.elim
    · exact hk
  · simp only [Function.update_self]
    exact Inode.SamePtrs.refl _

theorem linkInode_spec {α : Type} {k : FsProg α} {Q : α → FsState → Prop}
    (h : Working e alive ino (· = ino) nothing x ents t) {dir : Nat} (hdir : alive dir = true)
    (name : List UInt8) (dtype : UInt8) (hk : ∀ u, Resting e alive u → Does e k Q u) : Does e (do
      writeInode ino x
      addDirent dir name ino dtype
      k) Q t := by
  refine (writeInode_working hl h).bind fun _ u hu => ?_
  exact (addDirent_spec hl hu.resting hdir name ino dtype).bind fun _ u hu => hk u hu

end

end OnyxFs
