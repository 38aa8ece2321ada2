import Mathlib.Algebra.Order.Ring.Nat
import Mathlib.Data.List.Perm.Basic
import OnyxKernel.Core.Errno

/-!
# IPC channels

The slots of `ipc/channel` and what each critical section does to one slot. The sections are put
together into calls, and the calls interleaved, in the modules on top of this one.

The client array is the list of its first `num_clients` entries, the name the list of its first
`name_len` bytes. The buffer is a function on indices; `head` and `tail` are the running `u32`
counters of the source.
-/

namespace Ipc

open Onyx List

def chanMax : Nat := 32

def chanBufSize : Nat := 4096

def chanNameMax : Nat := 32

def chanMaxClients : Nat := 4

/-! ## The ring -/

def ringUsed (head tail : UInt32) : UInt32 := tail - head

def ringFree (capacity : Nat) (head tail : UInt32) : UInt32 := UInt32.ofNat capacity - ringUsed head tail

/-- The loop of `ring_write`: each byte goes to the index of the running counter. -/
def writeLoop (capacity : Nat) : (Nat → UInt8) → UInt32 → List UInt8 → (Nat → UInt8) × UInt32
  | buf, tail, [] => (buf, tail)
  | buf, tail, b :: rest =>
    writeLoop capacity (Function.update buf (tail.toNat % capacity) b) (tail + 1) rest

/-- The bytes of `src` for which `ring_write` has room. -/
def fitting (capacity : Nat) (head tail : UInt32) (src : List UInt8) : List UInt8 :=
  src.take (ringFree capacity head tail).toNat

/-- The loop of `ring_read`, for `n` bytes. -/
def readLoop (capacity : Nat) (buf : Nat → UInt8) : UInt32 → Nat → List UInt8 × UInt32
  | head, 0 => ([], head)
  | head, n + 1 =>
    let (rest, last) := readLoop capacity buf (head + 1) n
    (buf (head.toNat % capacity) :: rest, last)

/-! ## The counters

A ring is filled by at most its capacity, so neither count wraps.
-/

theorem writeLoop_tail (capacity : Nat) (buf : Nat → UInt8) (tail : UInt32) (src : List UInt8) :
    (writeLoop capacity buf tail src).2 = tail + UInt32.ofNat src.length := by
  induction src generalizing buf tail with
  | nil => simp [writeLoop]
  | cons b rest ih =>
    rw [writeLoop, ih, length_cons, Nat.add_comm, UInt32.ofNat_add, UInt32.add_assoc]
    rfl

theorem readLoop_head (capacity : Nat) (buf : Nat → UInt8) (head : UInt32) (n : Nat) :
    (readLoop capacity buf head n).2 = head + UInt32.ofNat n := by
  induction n generalizing head with
  | zero => simp [readLoop]
  | succ n ih =>
    rw [readLoop, ih, Nat.add_comm, UInt32.ofNat_add, UInt32.add_assoc]
    rfl

def RingOk (head tail : UInt32) : Prop := (ringUsed head tail).toNat ≤ chanBufSize

variable {head tail : UInt32}

theorem ringFree_toNat (h : RingOk head tail) :
    (ringFree chanBufSize head tail).toNat = chanBufSize - (ringUsed head tail).toNat := by
  have hle : ringUsed head tail ≤ UInt32.ofNat chanBufSize := UInt32.le_iff_toNat_le.mpr h
  unfold ringFree
  rw [UInt32.toNat_sub_of_le _ _ hle]
  rfl

theorem ringUsed_add {k : Nat} (h : (ringUsed head tail).toNat + k < 2 ^ 32) :
    (ringUsed head (tail + UInt32.ofNat k)).toNat = (ringUsed head tail).toNat + k := by
  have he : ringUsed head (tail + UInt32.ofNat k) = ringUsed head tail + UInt32.ofNat k := by
    unfold ringUsed
    grind
  rw [he, UInt32.toNat_add, UInt32.toNat_ofNat']
  omega

theorem ringUsed_write (h : RingOk head tail) {k : Nat}
    (hk : k ≤ (ringFree chanBufSize head tail).toNat) :
    (ringUsed head (tail + UInt32.ofNat k)).toNat = (ringUsed head tail).toNat + k := by
  rw [ringFree_toNat h] at hk
  unfold RingOk chanBufSize at *
  exact ringUsed_add (by omega)

theorem ringUsed_read {k : Nat} (hk : k ≤ (ringUsed head tail).toNat) :
    (ringUsed (head + UInt32.ofNat k) tail).toNat = (ringUsed head tail).toNat - k := by
  have he : ringUsed (head + UInt32.ofNat k) tail = ringUsed head tail - UInt32.ofNat k := by
    unfold ringUsed
    grind
  have hlt : (ringUsed head tail).toNat < 2 ^ 32 := (ringUsed head tail).toNat_lt
  have hofNat : (UInt32.ofNat k).toNat = k := by
    exact Nat.mod_eq_of_lt (Nat.lt_of_le_of_lt hk hlt)
  have hle : UInt32.ofNat k ≤ ringUsed head tail := by
    rwa [UInt32.le_iff_toNat_le, hofNat]
  rw [he, UInt32.toNat_sub_of_le _ _ hle, hofNat]

/-! ## Slots -/

/-- `struct Channel`, without its lock; processes on the wait lists are named by their node. -/
structure Channel where
  buf : Nat → UInt8
  head : UInt32
  tail : UInt32
  ownerPid : Nat
  clients : List Nat
  name : List UInt8
  used : Bool
  closed : Bool
  sendWait : Option Nat
  recvWait : Option Nat

def Channel.zeroed : Channel where
  buf := fun _ => 0
  head := 0
  tail := 0
  ownerPid := 0
  clients := []
  name := []
  used := false
  closed := false
  sendWait := none
  recvWait := none

namespace Channel

variable (ch : Channel)

def pidAllowed (pid : Nat) : Bool := pid == ch.ownerPid || ch.clients.contains pid

/-- What a locked section decided. -/
inductive Answer
  /-- the call returns this error -/
  | fails (e : Errno)
  /-- the caller puts itself on a wait list and yields -/
  | blocks
  /-- these bytes went into or out of the ring; the call returns their number -/
  | moved (bytes : List UInt8)
  deriving DecidableEq

/-- The locked section of `send`, up to the decision about the wait list. -/
def send (pid : Nat) (src : List UInt8) : Answer × Channel :=
  if !ch.used || ch.closed then (.fails .pipe, ch)
  else if !ch.pidAllowed pid then (.fails .perm, ch)
  else if (ringFree chanBufSize ch.head ch.tail).toNat < src.length then (.blocks, ch)
  else
    let bytes := fitting chanBufSize ch.head ch.tail src
    let (buf, tail) := writeLoop chanBufSize ch.buf ch.tail bytes
    (.moved bytes, { ch with buf, tail })

/-- The locked section of `recv`, up to the decision about the wait list. -/
def recv (pid : Nat) (len : Nat) : Answer × Channel :=
  if !ch.used || ch.closed then (.fails .pipe, ch)
  else if !ch.pidAllowed pid then (.fails .perm, ch)
  else if ringUsed ch.head ch.tail == 0 then (.blocks, ch)
  else
    let (bytes, head) := readLoop chanBufSize ch.buf ch.head (min len (ringUsed ch.head ch.tail).toNat)
    (.moved bytes, { ch with head })

/-- The locked section of `open_by_name`: `used` is not looked at again. -/
def openLocked (pid : Nat) : Except Errno Channel :=
  if chanMaxClients ≤ ch.clients.length then .error .noMem
  else if ch.clients.contains pid then .ok ch
  else .ok { ch with clients := ch.clients ++ [pid] }

/-- The locked section of `connect`. -/
def connect (pid : Nat) : Except Errno Channel :=
  if !ch.used then .error .noEnt
  else if chanMaxClients ≤ ch.clients.length then .error .noMem
  else .ok { ch with clients := ch.clients ++ [pid] }

/-- Overwrite entry `i` with the last one and drop the last one. -/
def swapRemove (l : List Nat) (i : Nat) : List Nat := (l.set i (l.getLastD 0)).dropLast

/-- The locked section of `disconnect`. -/
def disconnect (pid : Nat) : Channel :=
  if !ch.used then ch
  else
    match ch.clients.idxOf? pid with
    | some i => { ch with clients := swapRemove ch.clients i }
    | none => ch

/-- The locked section of `close`. -/
def close : Except Errno Channel :=
  if !ch.used then .error .noEnt else .ok { ch with closed := true, used := false }

def SameContents (ch ch' : Channel) : Prop :=
  ch'.buf = ch.buf ∧ ch'.head = ch.head ∧ ch'.tail = ch.tail ∧ ch'.used = ch.used ∧
    ch'.closed = ch.closed

def Answer.succeeds : Answer → Bool
  | fails _ => false
  | _ => true

/-! ## What the sections leave alone -/

variable {ch} {pid : Nat}

theorem SameContents.refl : ch.SameContents ch := ⟨rfl, rfl, rfl, rfl, rfl⟩

variable {ch' : Channel} {len : Nat} {src : List UInt8} {bytes : List UInt8}

theorem allowed_of_send (h : (ch.send pid src).1.succeeds = true) : ch.used = true ∧ ch.pidAllowed pid = true := by
  unfold send at h
  split_ifs at h with hu hp <;> simp_all [Answer.succeeds]

theorem allowed_of_recv (h : (ch.recv pid len).1.succeeds = true) : ch.used = true ∧ ch.pidAllowed pid = true := by
  unfold recv at h
  split_ifs at h with hu hp <;> simp_all [Answer.succeeds]

theorem send_eq (ch : Channel) (pid : Nat) (src : List UInt8) : (ch.send pid src).2 = ch ∨
      ch.pidAllowed pid = true ∧ ∃ buf tail, (ch.send pid src).2 = { ch with buf, tail } := by
  unfold send
  split_ifs with hu hp hf
  · exact .inl rfl
  · exact .inl rfl
  · exact .inl rfl
  · exact .inr ⟨by simpa using hp, _, _, rfl⟩

theorem recv_eq (ch : Channel) (pid len : Nat) : (ch.recv pid len).2 = ch ∨
      ch.pidAllowed pid = true ∧ ∃ head, (ch.recv pid len).2 = { ch with head } := by
  unfold recv
  split_ifs with hu hp hf
  · exact .inl rfl
  · exact .inl rfl
  · exact .inl rfl
  · exact .inr ⟨by simpa using hp, _, rfl⟩

theorem send_blocks (h : ch.send pid src = (.blocks, ch')) :
    ch.used = true ∧ ch.closed = false ∧ (ringFree chanBufSize ch.head ch.tail).toNat < src.length := by
  unfold send at h
  split_ifs at h with hu hp hf
  · cases h
  · cases h
  · rw [Bool.or_eq_true, not_or] at hu
    exact ⟨by simpa using hu.1, by simpa using hu.2, hf⟩
  · simp only [Prod.mk.injEq, reduceCtorEq, false_and] at h

theorem recv_blocks (h : ch.recv pid len = (.blocks, ch')) :
    ch.used = true ∧ ch.closed = false ∧ ringUsed ch.head ch.tail = 0 := by
  unfold recv at h
  split_ifs at h with hu hp hf
  · cases h
  · cases h
  · rw [Bool.or_eq_true, not_or] at hu
    exact ⟨by simpa using hu.1, by simpa using hu.2, beq_iff_eq.mp hf⟩
  · cases h

theorem send_moved (hr : RingOk ch.head ch.tail)
    (h : ch.send pid src = (.moved bytes, ch')) :
    ∃ buf tail, ch' = { ch with buf, tail } ∧ RingOk ch.head tail ∧
      (ringFree chanBufSize ch.head tail).toNat ≤ (ringFree chanBufSize ch.head ch.tail).toNat := by
  unfold send at h
  split_ifs at h <;> simp only [Prod.mk.injEq, reduceCtorEq, false_and] at h
  obtain ⟨-, rfl⟩ := h
  have hlen : (fitting chanBufSize ch.head ch.tail src).length ≤
      (ringFree chanBufSize ch.head ch.tail).toNat := length_take_le _ _
  have hused := ringUsed_write hr hlen
  rw [← writeLoop_tail chanBufSize ch.buf] at hused
  have hfree := ringFree_toNat hr
  refine ⟨_, _, rfl, ?_⟩
  have hok : RingOk ch.head
      (writeLoop chanBufSize ch.buf ch.tail (fitting chanBufSize ch.head ch.tail src)).2 := by
    unfold RingOk at hr ⊢
    omega
  exact ⟨hok, by rw [ringFree_toNat hok]; omega⟩

theorem recv_moved (hr : RingOk ch.head ch.tail)
    (h : ch.recv pid len = (.moved bytes, ch')) :
    ringUsed ch.head ch.tail ≠ 0 ∧ ∃ head, ch' = { ch with head } ∧ RingOk head ch.tail := by
  unfold recv at h
  split_ifs at h with hu hp hf <;> simp only [Prod.mk.injEq, reduceCtorEq, false_and] at h
  obtain ⟨-, rfl⟩ := h
  have hused := ringUsed_read (Nat.min_le_right len (ringUsed ch.head ch.tail).toNat)
  rw [← readLoop_head chanBufSize ch.buf] at hused
  refine ⟨fun hz => hf (beq_iff_eq.mpr hz), _, rfl, ?_⟩
  unfold RingOk at hr ⊢
  omega

/-! ## The clients -/

theorem swapRemove_perm {l : List Nat} {i : Nat} (hi : i < l.length) : (swapRemove l i).Perm (l.eraseIdx i) := by
  rcases eq_nil_or_concat l with rfl | ⟨init, z, rfl⟩
  · cases hi
  · rw [concat_eq_append] at hi ⊢
    have hlen : i < init.length + 1 := by simpa using hi
    unfold swapRemove
    rw [getLastD_concat]
    rcases Nat.lt_succ_iff_lt_or_eq.mp hlen with hlt | rfl
    · rw [set_append_left _ _ hlt, dropLast_concat, eraseIdx_append_of_lt_length hlt]
      exact (set_perm_cons_eraseIdx hlt z).trans (perm_append_singleton z _).symm
    · rw [set_append_right _ _ (Nat.le_refl _), Nat.sub_self, set_cons_zero,
        dropLast_concat, eraseIdx_append_of_length_le (Nat.le_refl _), Nat.sub_self]
      simp

end Channel

end Ipc
