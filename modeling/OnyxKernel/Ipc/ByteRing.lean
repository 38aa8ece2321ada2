import OnyxKernel.Infra.Ring
import OnyxKernel.Ipc.Channel

/-!
# What a byte ring holds

The loops of `ring_write` and `ring_read` for any capacity that divides `2^32`, so that the running counters
may wrap: the bytes between `head` and `tail`, and what the loops do to them.
-/

namespace Ipc

open Infra Ring

variable {capacity : Nat} {buf : Nat → UInt8} {head tail : UInt32}

/-- The bytes that `ring_read` would hand out next. -/
def pendingOf (capacity : Nat) (buf : Nat → UInt8) (head tail : UInt32) : List UInt8 :=
  (readLoop capacity buf head (ringUsed head tail).toNat).1

section

variable (hdvd : capacity ∣ 2 ^ 32)
include hdvd

theorem succ_mod_capacity (i : UInt32) : (i + 1).toNat % capacity = (i.toNat + 1) % capacity := by
  exact Nat.mod_mod_of_dvd _ hdvd

theorem readLoop_eq_held (buf : Nat → UInt8) (head : UInt32) (n : Nat) :
    (readLoop capacity buf head n).1 = held capacity buf head.toNat n := by
  induction n generalizing head with
  | zero => rfl
  | succ n ih =>
    have hnext := ih (head + 1)
    rw [← held_mod, succ_mod_capacity hdvd, held_mod] at hnext
    rw [held_succ, ← hnext]
    rfl

theorem writeLoop_eq_store (buf : Nat → UInt8) (tail : UInt32) (src : List UInt8) :
    (writeLoop capacity buf tail src).1 = store capacity buf tail.toNat src := by
  induction src generalizing buf tail with
  | nil => rfl
  | cons b rest ih =>
    rw [writeLoop, store, ih, ← store_mod _ (tail + 1).toNat, succ_mod_capacity hdvd, store_mod]

theorem length_pendingOf : (pendingOf capacity buf head tail).length = (ringUsed head tail).toNat := by
  rw [pendingOf, readLoop_eq_held hdvd, length_held]

theorem tail_mod_capacity (head tail : UInt32) :
    tail.toNat % capacity = (head.toNat + (ringUsed head tail).toNat) % capacity := by
  have hsum : tail = head + ringUsed head tail := by
    unfold ringUsed
    grind
  have hnat := congrArg UInt32.toNat hsum
  rw [hnat]
  exact Nat.mod_mod_of_dvd _ hdvd

end

theorem pendingOf_write (hdvd : capacity ∣ 2 ^ 32) (hcap : capacity < 2 ^ 32) {src : List UInt8}
    (hroom : (ringUsed head tail).toNat + src.length ≤ capacity) :
    let out := writeLoop capacity buf tail src
    pendingOf capacity out.1 head out.2 = pendingOf capacity buf head tail ++ src ∧
      (ringUsed head out.2).toNat = (ringUsed head tail).toNat + src.length := by
  intro out
  have hused : (ringUsed head out.2).toNat = (ringUsed head tail).toNat + src.length := by
    rw [writeLoop_tail]
    exact ringUsed_add (by omega)
  refine ⟨?_, hused⟩
  simp only [pendingOf, readLoop_eq_held hdvd]
  rw [hused, writeLoop_eq_store hdvd, ← store_mod, tail_mod_capacity hdvd head, store_mod, held_store _ _ _ hroom]

theorem pendingOf_read (hdvd : capacity ∣ 2 ^ 32) {k : Nat} (hk : k ≤ (ringUsed head tail).toNat) :
    let out := readLoop capacity buf head k
    out.1 ++ pendingOf capacity buf out.2 tail = pendingOf capacity buf head tail ∧
      (ringUsed out.2 tail).toNat = (ringUsed head tail).toNat - k := by
  intro out
  have hused : (ringUsed out.2 tail).toNat = (ringUsed head tail).toNat - k := by
    rw [readLoop_head]
    exact ringUsed_read hk
  refine ⟨?_, hused⟩
  simp only [pendingOf, readLoop_eq_held hdvd, out] at hused ⊢
  rw [hused, readLoop_head]
  have hmod : (head + UInt32.ofNat k).toNat % capacity = (head.toNat + k) % capacity := by
    rw [UInt32.toNat_add, UInt32.toNat_ofNat', Nat.add_mod_mod]
    exact Nat.mod_mod_of_dvd _ hdvd
  rw [← held_mod buf (head + UInt32.ofNat k).toNat, hmod, held_mod, held_drop _ _ hk,
    held_take _ _ hk, List.take_append_drop]

end Ipc
