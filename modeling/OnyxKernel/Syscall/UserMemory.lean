import OnyxKernel.Core.Errno
import OnyxKernel.Infra.Checked

/-!
# User ranges

The checks that a system call makes before it touches a buffer of its caller: the range test of
`syscall/handler`, and the walks of `mm/vmm/map/user_copy` over the pages of the range. The kernel is built
with overflow checks; a sum that leaves its type stops it, here `none`. A loop that would not end within the
passes it is given is `none` as well, so that a call which is `Fine` ends.

The range test comes first in every call. It adds with a check of its own, and after it all sums stay below
`USER_TOP` and a page.
-/

namespace Syscall

open Onyx Checked

def userBase : Nat := 0x10000

/-- `USER_TOP` of the 64-bit kernel. -/
def userTop : Nat := 0x80000000

def userPtrOk (p len : Nat) : Bool :=
  userBase ≤ p && match add 64 p len with
    | none => false
    | some last => last ≤ userTop

/-- Which pages of the caller are mapped for reading and which for writing, by their first address. -/
structure UserPages where
  readable : Nat → Bool
  writable : Nat → Bool

/-- `translate_user` and `translate_user_write` as tests. -/
def UserPages.mapped (m : UserPages) (write : Bool) (va : Nat) : Bool :=
  if write then m.writable va else m.readable va

/-- The loop of `check_user_range`. -/
def checkPages (m : UserPages) (write : Bool) (last : Nat) : Nat → Nat → Option (Except Errno Unit)
  | 0, _ => none
  | fuel + 1, va =>
    if va < last then
      if m.mapped write va = false then some (.error .fault)
      else do
        let va ← add 64 va 0x1000
        checkPages m write last fuel va
    else some (.ok ())

def checkUserRange (m : UserPages) (uaddr len : Nat) (write : Bool) : Option (Except Errno Unit) :=
  if len = 0 then some (.ok ())
  else
    match add 64 uaddr len with
    | none => some (.error .fault)
    | some last => checkPages m write last (len / 0x1000 + 3) (uaddr - uaddr % 0x1000)

/-- The loop of `copy_to_user` and `copy_from_user`. -/
def copyPages (m : UserPages) (write : Bool) (uaddr len : Nat) : Nat → Nat → Option (Except Errno Unit)
  | 0, _ => none
  | fuel + 1, done =>
    if done < len then do
      let va ← add 64 uaddr done
      if m.mapped write (va - va % 0x1000) = false then return .error .fault
      let left ← sub len done
      let room ← sub 0x1000 (va % 0x1000)
      let done ← add 64 done (min left room)
      copyPages m write uaddr len fuel done
    else some (.ok ())

/-- `copy_to_user` with `write`, `copy_from_user` without. -/
def copyUser (m : UserPages) (write : Bool) (uaddr len : Nat) : Option (Except Errno Unit) := do
  match ← checkUserRange m uaddr len write with
  | .error e => return .error e
  | .ok () => copyPages m write uaddr len (len + 1) 0

/-! ## No sum leaves its type -/

theorem userPtrOk_iff {p len : Nat} : userPtrOk p len = true ↔ userBase ≤ p ∧ p + len ≤ userTop := by
  unfold userPtrOk add
  have htop : userTop < 2 ^ 64 := by decide
  by_cases h : p + len < 2 ^ 64
  · rw [if_pos h]
    simp only [Bool.and_eq_true, decide_eq_true_eq]
  · rw [if_neg h]
    simp only [Bool.and_false, Bool.false_eq_true, false_iff]
    omega

theorem checkPages_fine (m : UserPages) (write : Bool) {last : Nat} (hlast : last + 0x1000 ≤ 2 ^ 64) :
    ∀ fuel va, va < last + 0x1000 → last + 0x1000 ≤ va + fuel * 0x1000 →
      Fine (checkPages m write last fuel va) fun _ => True
  | 0, va, hva, hfuel => by omega
  | fuel + 1, va, hva, hfuel => by
    refine fine_ite (fun hlt => fine_ite (fun _ => fine_some trivial) fun _ => ?_) fun _ => fine_some trivial
    refine (fine_add (by omega)).bind fun va' hva' => ?_
    exact checkPages_fine m write hlast fuel va' (by omega) (by omega)

variable {uaddr len : Nat}

theorem checkUserRange_fine (m : UserPages) (write : Bool)
    (hok : userPtrOk uaddr len = true) : Fine (checkUserRange m uaddr len write) fun _ => True := by
  obtain ⟨-, hle⟩ := userPtrOk_iff.mp hok
  have htop : userTop + 0x1000 ≤ 2 ^ 64 := by decide
  refine fine_ite (fun _ => fine_some trivial) fun _ => ?_
  simp only [add, if_pos (show uaddr + len < 2 ^ 64 by omega)]
  exact checkPages_fine m write (by omega) _ _ (by omega) (by omega)

theorem copyPages_fine (m : UserPages) (write : Bool) (hle : uaddr + len < 2 ^ 64) :
    ∀ fuel done, done ≤ len → len < done + fuel →
      Fine (copyPages m write uaddr len fuel done) fun _ => True
  | 0, done, hdone, hfuel => by omega
  | fuel + 1, done, hdone, hfuel => by
    refine fine_ite (fun hlt => ?_) fun _ => fine_some trivial
    refine (fine_add (by omega)).bind fun va _ => fine_ite (fun _ => fine_some trivial) fun _ => ?_
    refine (fine_sub (by omega)).bind fun left hleft => ?_
    refine (fine_sub (a := 0x1000) (b := va % 0x1000) (by omega)).bind fun room hroom => ?_
    -- a page has room for a byte, so that every pass moves on
    refine (fine_add (by omega)).bind fun done' hdone' => ?_
    exact copyPages_fine m write hle fuel done' (by omega) (by omega)

theorem copyUser_fine (m : UserPages) (write : Bool)
    (hok : userPtrOk uaddr len = true) : Fine (copyUser m write uaddr len) fun _ => True := by
  have hle := (userPtrOk_iff.mp hok).2
  have htop : userTop < 2 ^ 64 := by decide
  refine (checkUserRange_fine m write hok).bind fun r _ => ?_
  cases r with
  | error e => exact fine_pure trivial
  | ok _ => exact copyPages_fine m write (by omega) _ _ (by omega) (by omega)

end Syscall
