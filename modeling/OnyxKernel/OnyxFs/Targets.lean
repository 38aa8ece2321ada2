import OnyxKernel.OnyxFs.OwnershipRun

/-!
# Where an operation writes

Every block that an operation changes is a home block, also when it returns an error. For most
operations this is part of what `OwnershipRun` says. `truncate` and `shrink` are looked at again
here: they free whatever numbers they find in the scratch block, but a freed number only ever
reaches the data bitmap.
-/

namespace OnyxFs

open Infra Onyx StateProg

variable {e : Env} {d : Disk Block} {t : FsState} {ino : Nat}

def Somewhere (e : Env) (t : FsState) : Prop := ∃ d, On e d t

theorem On.somewhere (h : On e d t) : Somewhere e t := ⟨d, h⟩

theorem Somewhere.stopped (h : Somewhere e t) : Stopped e t := by
  obtain ⟨d, h⟩ := h
  exact h.stopped

theorem Somewhere.keeping (h : Somewhere e t) : Keeping e (fun _ => True) t := by
  obtain ⟨d, h⟩ := h
  exact ⟨d, h, trivial⟩

theorem Keeping.somewhere {K : Disk Block → Prop} (h : Keeping e K t) : Somewhere e t := by
  obtain ⟨d, h, -⟩ := h
  exact ⟨d, h⟩

section

variable (hl : Layout e.toVolume)
include hl

/-! ## `truncate` and `truncate_to_length` -/

theorem writeInode_somewhere (h : Somewhere e t)
    (hi : InTable e.toVolume (inodeBlock e.toVolume ino)) (x : Inode) :
    Does e (writeInode ino x) (fun _ => Somewhere e) t := by
  obtain ⟨d, b, h⟩ := h
  exact (writeInode_spec hl h hi x).mono fun _ _ hu => hu.2.somewhere

theorem truncateBody_somewhere (h : On e d t) (hi : InTable e.toVolume (inodeBlock e.toVolume ino)) :
    Does e (truncateBody ino) (fun _ => Somewhere e) t := by
  obtain ⟨b, hat⟩ := h
  refine (checkV2_spec hat).bind fun _ u hu => ?_
  refine (readInode_spec hl hu ino).bind ?_
  rintro x u ⟨-, hu⟩
  refine (freeAllBlocks_keeping hl (fun _ _ => trivial) x _ hu.somewhere.keeping).bind fun y u hu => ?_
  exact (jiffies_keeping _ hu).bind fun now u hu => writeInode_somewhere hl hu.somewhere hi _

theorem truncateToLengthBody_somewhere (h : On e d t)
    (hb : BlocksOwned e.toVolume d) (hi : live e.toVolume d ino = true) (length : UInt64) :
    Does e (truncateToLengthBody ino length) (fun _ => Somewhere e) t := by
  have htab : InTable e.toVolume (inodeBlock e.toVolume ino) := hb.flight.inTable hi
  by_cases hlt : length < (inodeAt e.toVolume d ino).size
  · unfold truncateToLengthBody
    obtain ⟨b, hat⟩ := h
    refine (checkV2_spec hat).bind fun _ u hu => ?_
    refine (readInode_spec hl hu ino).bind ?_
    rintro x u ⟨rfl, hu⟩
    split
    · exact Meets.pure hu.somewhere
    split
    · exact (truncateBody_somewhere hl hu htab).bind fun _ u hu => Meets.pure hu
    unfold resize
    rw [if_pos hlt]
    refine (shrink_keeping hl (fun _ _ => trivial)
      (fun h0 => ⟨?_, fun _ _ => trivial⟩) _ _ hu.somewhere.keeping).bind
      fun y u hu => ?_
    · exact (hb.flight.inData_of_ref (hb.flight.ref_table hi h0)).target hl
    refine (jiffies_keeping _ hu).bind fun now u hu => ?_
    exact (writeInode_somewhere hl hu.somewhere htab _).bind fun _ u hu => Meets.pure hu
  · -- A file that does not get shorter drops no entry.
    refine (truncateToLengthBody_resizes hl h hb hi fun hc => absurd hc hlt).mono ?_
    rintro - u ⟨d', -, hu⟩
    exact hu.somewhere

/-! ## Every operation -/

/-- The operation works on live inodes, and a write finds every table entry it needs. -/
def FsOp.Aimed (e : Env) (d : Disk Block) : FsOp → Prop
  | truncate ino => live e.toVolume d ino = true
  | truncateToLength ino _ => live e.toVolume d ino = true
  | o => o.Safe e d

/-- The in-place writes of an operation go to home blocks, whether it succeeds or fails. -/
theorem FsOp.aimed_stopped (h : On e d t) (hb : BlocksOwned e.toVolume d)
    {o : FsOp} (ho : o.Aimed e d) :
    wp o.prog (fun _ => Stopped e) (fun _ => Stopped e) t := by
  have hsafe : o.Safe e d → wp o.prog (fun _ => Stopped e) (fun _ => Stopped e) t := fun hs =>
    wp_imp (FsOp.ordered hl h hb hs) fun _ u hu => by
      obtain ⟨d', -, hu⟩ := hu
      exact hu.stopped
  have hcommit : ∀ u, Somewhere e u →
      wp journalCommit (fun _ => Stopped e) (fun _ => Stopped e) u := by
    rintro u ⟨d', b, hu⟩
    exact wp_imp (journalCommit_at hu) fun _ v hv => hv.stopped
  cases o with
  | truncate ino =>
    have hbody := truncateBody_somewhere hl h (hb.flight.inTable ho)
    refine wp_then hbody.spec fun _ u hu => ?_
    exact wp_then (hcommit u hu) fun _ _ hv => hv
  | truncateToLength ino length =>
    have hbody := truncateToLengthBody_somewhere hl h hb ho length
    refine wp_then hbody.spec fun changed u hu => ?_
    cases changed with
    | false => exact hu.stopped
    | true => exact hcommit u hu
  | create dirIno name mode | mkdir dirIno name | symlink dirIno name target | write ino data off | unlink path
  | rename oldPath newPath =>
    exact hsafe ho

end

end OnyxFs
