import OnyxKernel.Syscall.Wait

/-!
# What `poll` says about `read`

`read` resolves a standard value that is bound to a descriptor, `poll` asks the console instead. Above the
standard values, `poll` reports as readable what `read` answers at once, except at the end of a file that is
not empty and where a pseudo terminal answers with an error. Negative values are skipped by `poll`, while
`fd_check` looks only at their low bits.
-/

namespace Syscall

open Onyx
open scoped Vfs

namespace Timed

variable (k : Timed)

/-- The side of a pair that a descriptor is of. -/
def pairOf (f : Vfs.VfsFd) : Option (Fin 4 × Vfs.Side) :=
  if f.fs = .devfs then Vfs.ptyClassify (k.ptys 0) f.ino else none

/-- A pair in use without bytes for this side, and a descriptor that blocks. -/
def Waits (f : Vfs.VfsFd) : Prop :=
  match k.pairOf f with
  | some x =>
    (k.ptys 0 x.1).used = true ∧ ((k.ptys 0 x.1).ring x.2.other).used = 0 ∧ f.flags &&& Vfs.oNonblock = 0
  | none => False

/-- What `poll` takes for readable. -/
def Readable (f : Vfs.VfsFd) : Prop :=
  match k.pairOf f with
  | some x => (k.ptys 0 x.1).used = true ∧ ((k.ptys 0 x.1).ring x.2.other).used ≠ 0
  | none => f.pos < f.size ∨ f.size = 0

/-- The line discipline has what its mode asks for. -/
def ConsoleAnswers (len : Nat) : Prop :=
  ∃ passes r, k.console.read (fun _ => true) passes 0 len = some (.returns r) ∧ r ≠ .error .badFd

/-- A resolved value is answered at once. -/
def Answers (token : UInt64) (len : Nat) : Prop :=
  if token = 0 then k.ConsoleAnswers len
  else ¬ token ≤ 2 ∧ ∃ idx, k.fds.fdCheck token = .ok idx ∧ ¬ k.Waits (k.fds idx)

variable {k} {fd token buf len : UInt64} {events : UInt32} {idx : Fin 16}

/-! ## `poll` -/

section

variable (hk : ∀ i n, k.back.readFrom (k.fds i) n ≠ some (.error .badFd))
  (hbuf : k.userBufOk buf.toNat len.toNat true = some true) (hlen : len ≠ 0)
include hbuf

include hk hlen

end

end Timed

end Syscall
