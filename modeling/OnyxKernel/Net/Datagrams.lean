import OnyxKernel.Net.Udp

/-!
# The receive queue of a UDP socket

`Holds` says which datagrams a queue holds. The bytes are one ring, the lengths and the senders two others that move
together; `push` and `pop` keep them in step, whatever the lengths are.
-/

namespace Udp

open Infra List Ring

/-- A datagram and its sender. -/
abbrev Message := List UInt8 × Peer

inductive Request
  | push (payload : List UInt8) (peer : Peer)
  | pop (size : Nat)

inductive Answer
  | pushed (fits : Bool)
  | popped (message : Option Message)

def DatagramQueue.serve (q : DatagramQueue) : Request → Answer × DatagramQueue
  | .push payload peer => (.pushed (q.push payload peer).1, (q.push payload peer).2)
  | .pop size => (.popped (q.pop size).1, (q.pop size).2)

/-- What a queue is for; the oldest message is the first. -/
def serveList (l : List Message) : Request → Answer × List Message
  | .push payload peer =>
    if (l.flatMap Prod.fst).length + payload.length ≤ queueBytes ∧ l.length < queueMessages then
      (.pushed true, l ++ [(payload, peer)])
    else (.pushed false, l)
  | .pop size => (.popped (l.head?.map fun m => (m.1.take size, m.2)), l.tail)

def answers {σ : Type} (serve : σ → Request → Answer × σ) : σ → List Request → List Answer × σ
  | s, [] => ([], s)
  | s, r :: rs => ((serve s r).1 :: (answers serve (serve s r).2 rs).1, (answers serve (serve s r).2 rs).2)

/-- The queue holds the messages `l`, and its indices are within the arrays. -/
structure DatagramQueue.Holds (q : DatagramQueue) (l : List Message) : Prop where
  head : q.head < queueBytes
  first : q.first < queueMessages
  messages : q.messages = l.length
  few : l.length ≤ queueMessages
  used : q.used = (l.flatMap Prod.fst).length
  room : q.used ≤ queueBytes
  bytes : held queueBytes q.bytes q.head q.used = l.flatMap Prod.fst
  lengths : held queueMessages q.lengths q.first q.messages = l.map fun m => m.1.length
  peers : held queueMessages q.peers q.first q.messages = l.map Prod.snd

/-- A queue and a list give the same answer, and the queue then holds the list. -/
def Agree {α : Type} (a : α × DatagramQueue) (b : α × List Message) : Prop := a.1 = b.1 ∧ a.2.Holds b.2

variable {q : DatagramQueue} {l : List Message}

theorem DatagramQueue.Holds.push (h : q.Holds l) (payload : List UInt8) (peer : Peer) :
    Agree (q.serve (.push payload peer)) (serveList l (.push payload peer)) := by
  have hused := h.used
  have hroom := h.room
  have hmess := h.messages
  have hfew := h.few
  simp only [serve, serveList, DatagramQueue.push]
  split
  · rw [if_neg (by omega)]
    exact ⟨rfl, h⟩
  rename_i hfits
  rw [not_or, Nat.not_lt] at hfits
  rw [if_pos (by omega)]
  refine ⟨rfl, h.head, h.first, ?_, ?_, ?_, ?_, ?_, ?_, ?_⟩
  · simp [hmess]
  · simp only [length_append, length_singleton]
    omega
  · simp [hused]
  · show q.used + payload.length ≤ queueBytes
    omega
  · simp only [store_mod]
    rw [held_store _ _ _ (by omega), h.bytes]
    simp
  · rw [held_update_next _ (by omega), h.lengths]
    simp
  · rw [held_update_next _ (by omega), h.peers]
    simp

theorem DatagramQueue.Holds.first_message {m : Message} (h : q.Holds (m :: l)) :
    q.lengths q.first = m.1.length ∧ q.peers q.first = m.2 ∧ q.lengths q.first ≤ q.used := by
  have hlengths := h.lengths
  have hpeers := h.peers
  have hused := h.used
  rw [h.messages, length_cons, held_succ, Nat.mod_eq_of_lt h.first, map_cons] at hlengths hpeers
  rw [flatMap_cons, length_append] at hused
  have hlen := (cons.inj hlengths).1
  exact ⟨hlen, (cons.inj hpeers).1, by omega⟩

theorem DatagramQueue.Holds.pop (h : q.Holds l) (size : Nat) :
    Agree (q.serve (.pop size)) (serveList l (.pop size)) := by
  have hmess := h.messages
  simp only [serve, serveList, DatagramQueue.pop]
  cases l with
  | nil =>
    rw [if_pos (show q.messages = 0 from hmess)]
    exact ⟨rfl, h⟩
  | cons m l =>
    obtain ⟨hlen, hpeer, hcut⟩ := h.first_message
    have hused := h.used
    have hbytes := h.bytes
    rw [flatMap_cons] at hused hbytes
    rw [if_neg (by simp [hmess])]
    refine ⟨?_, Nat.mod_lt _ (by decide), Nat.mod_lt _ (by decide), ?_, Nat.le_of_succ_le h.few, ?_,
      (Nat.sub_le _ _).trans h.room, ?_, held_tail h.lengths, held_tail h.peers⟩
    · rw [held_take _ _ ((Nat.min_le_left _ size).trans hcut), hbytes, hlen, hpeer,
        take_append_of_le_length (Nat.min_le_left ..), ← take_take,
        take_of_length_le (length_take_le' ..)]
      rfl
    · simp [hmess]
    · simp [hused, hlen]
    · show held _ _ ((q.head + q.lengths q.first) % _) (q.used - q.lengths q.first) = _
      rw [held_mod, held_drop _ _ hcut, hbytes, hlen, drop_left]
      rfl

theorem DatagramQueue.Holds.answers (rs : List Request) (h : q.Holds l) :
    Agree (answers serve q rs) (answers serveList l rs) := by
  induction rs generalizing q l with
  | nil => exact ⟨rfl, h⟩
  | cons r rs ih =>
    obtain ⟨hr, hnext⟩ : Agree (q.serve r) (serveList l r) := by
      cases r with
      | push payload peer => exact h.push payload peer
      | pop size => exact h.pop size
    exact ⟨congrArg₂ cons hr (ih hnext).1, (ih hnext).2⟩

/-- Whatever is pushed and popped, a queue answers like a list, its indices stay within the arrays, and the oldest
message is not longer than what is in use. -/
theorem datagrams_fifo (rs : List Request) :
    let q := answers DatagramQueue.serve .empty rs
    let l := answers serveList [] rs
    Agree q l ∧ (q.2.messages ≠ 0 → q.2.lengths q.2.first ≤ q.2.used) := by
  have hempty : DatagramQueue.empty.Holds [] := by
    constructor <;> first | rfl | decide
  have hrun := hempty.answers rs
  refine ⟨hrun, fun hsome => ?_⟩
  have hholds := hrun.2
  have hmess := hholds.messages
  generalize (answers serveList [] rs).2 = l at hholds hmess
  cases l with
  | nil => exact absurd hmess hsome
  | cons m l => exact hholds.first_message.2.2

end Udp
