import Mathlib.Data.Prod.Basic

/-!
# The ARP cache

`arp_lookup`, `arp_insert` and `handle_arp` of `net/eth.rs`. The three arrays of the cache, up to its length, are
one list: an entry is found by the card it was learnt on and the address.
-/

namespace Arp

/-- The card that is selected, with `G_NET.mac` and `G_IP`. -/
structure Card where
  index : Nat
  mac : List UInt8
  ip : List UInt8

abbrev Cache := List ((Nat × List UInt8) × List UInt8)

/-- `arp_lookup`. -/
def lookup (key : Nat × List UInt8) : Cache → Option (List UInt8)
  | [] => none
  | e :: c => if e.1 = key then some e.2 else lookup key c

/-- `arp_insert` from entry `i` on: the first entry with the key takes the address, and a new one goes to the end
while there is room. -/
def insert (key : Nat × List UInt8) (mac : List UInt8) : (i : Nat) → Cache → Cache
  | i, [] => if i < 64 then [(key, mac)] else []
  | i, e :: c => if e.1 = key then (key, mac) :: c else e :: insert key mac (i + 1) c

def field (frame : List UInt8) (start len : Nat) : List UInt8 := (frame.drop start).take len

/-- The checks of `handle_arp_inner`: the `spa` and `sha` of a frame that passes. -/
def sender (x : Card) (frame : List UInt8) : Option (List UInt8 × List UInt8) :=
  if frame.length < 42 then none
  else if field frame 14 6 ≠ [0, 1, 8, 0, 6, 4] then none
  else if field frame 20 2 ≠ [0, 1] ∧ field frame 20 2 ≠ [0, 2] then none
  else if field frame 6 6 ≠ field frame 22 6 ∨
      field frame 20 2 = [0, 2] ∧ (field frame 32 6 ≠ x.mac ∨ field frame 38 4 ≠ x.ip) then none
  else some (field frame 28 4, field frame 22 6)

/-- `handle_arp`: the cache afterwards, and the reply that is sent. -/
def handleArp (x : Card) (frame : List UInt8) (c : Cache) : Cache × Option (List UInt8) :=
  match sender x frame with
  | none => (c, none)
  | some (spa, sha) =>
    (if spa ≠ [0, 0, 0, 0] then insert (x.index, spa) sha 0 c else c,
      if field frame 20 2 = [0, 1] ∧ field frame 38 4 = x.ip then
        some (sha ++ x.mac ++ [8, 6, 0, 1, 8, 0, 6, 4, 0, 2] ++ x.mac ++ x.ip ++ sha ++ spa)
      else none)

/-- The cache after frames, each with the card it came in on. -/
def run (frames : List (Card × List UInt8)) (c : Cache) : Cache :=
  frames.foldl (fun c f => (handleArp f.1 f.2 c).1) c

theorem lookup_insert (key key' : Nat × List UInt8) (mac : List UInt8) (i : Nat) (c : Cache) :
    lookup key' (insert key mac i c) =
      if key' = key then if (lookup key c).isSome ∨ i + c.length < 64 then some mac else none
      else lookup key' c := by
  induction c generalizing i with
  | nil =>
    by_cases hroom : i < 64 <;> by_cases hkey : key' = key <;> simp [insert, lookup, hroom, hkey, Ne.symm]
  | cons e c ih =>
    by_cases hk : e.1 = key
    · by_cases hkey : key' = key <;> simp [insert, lookup, hk, hkey, Ne.symm]
    · have hlen : i + 1 + c.length = i + (c.length + 1) := Nat.succ_add_eq_add_succ i _
      by_cases hkey : key' = key
      · subst hkey
        simp only [insert, lookup, hk, if_false, if_true, ih, hlen, List.length_cons]
      · simp only [insert, lookup, hk, hkey, if_false, ih]

theorem lookup_handleArp_other {x : Card} {frame a : List UInt8} {dev : Nat} (c : Cache)
    (h : ∀ m, x.index = dev → sender x frame ≠ some (a, m)) :
    lookup (dev, a) (handleArp x frame c).1 = lookup (dev, a) c := by
  unfold handleArp
  cases hs : sender x frame with
  | none => rfl
  | some p =>
    obtain ⟨spa, sha⟩ := p
    have hkey : (dev, a) ≠ (x.index, spa) := by
      intro heq
      obtain ⟨rfl, rfl⟩ := Prod.mk.inj heq
      exact h sha rfl hs
    by_cases hz : spa = [0, 0, 0, 0] <;> simp [lookup_insert, hkey, hz]

theorem lookup_run_other {a : List UInt8} {dev : Nat} {frames : List (Card × List UInt8)} (c : Cache)
    (h : ∀ f ∈ frames, ∀ m, f.1.index = dev → sender f.1 f.2 ≠ some (a, m)) :
    lookup (dev, a) (run frames c) = lookup (dev, a) c := by
  induction frames generalizing c with
  | nil => rfl
  | cons f frames ih =>
    obtain ⟨hf, hrest⟩ := List.forall_mem_cons.mp h
    exact (ih _ hrest).trans (lookup_handleArp_other c hf)

/-- What an accepted frame says of its sender is found until the sender says otherwise, whatever frames come in
between on any cards, when the sender was known or one of the 64 entries was left. -/
theorem lookup_run_iff {before after : List (Card × List UInt8)} {x : Card} {frame a m : List UInt8}
    (hvalid : sender x frame = some (a, m)) (ha : a ≠ [0, 0, 0, 0])
    (hafter : ∀ f ∈ after, ∀ m', f.1.index = x.index → sender f.1 f.2 ≠ some (a, m')) :
    lookup (x.index, a) (run (before ++ (x, frame) :: after) []) = some m ↔
      (lookup (x.index, a) (run before [])).isSome ∨ (run before []).length < 64 := by
  have hrun : run (before ++ (x, frame) :: after) [] = run after (handleArp x frame (run before [])).1 := by
    simp [run]
  rw [hrun, lookup_run_other _ hafter]
  simp only [handleArp, hvalid, ne_eq, ha, not_false_eq_true, if_true, lookup_insert, ite_eq_left_iff, reduceCtorEq,
    imp_false, not_not, Nat.zero_add]

/-- A request that a card with hardware address 2:0:0:0:0:1 makes for its own address. -/
def announce (a : List UInt8) : List UInt8 :=
  [255, 255, 255, 255, 255, 255, 2, 0, 0, 0, 0, 1, 8, 6, 0, 1, 8, 0, 6, 4, 0, 1, 2, 0, 0, 0, 0, 1] ++ a ++
    [0, 0, 0, 0, 0, 0] ++ a

def card : Card := ⟨0, [2, 0, 0, 0, 0, 2], [10, 0, 0, 2]⟩

def secondCard : Card := ⟨1, [2, 0, 0, 0, 0, 3], [10, 0, 1, 2]⟩

/-- Between frames of others, and of the same address on another card. -/
theorem lookup_announced :
    lookup (card.index, [10, 0, 0, 3]) (run ([(secondCard, announce [10, 0, 0, 3]), (card, announce [10, 0, 0, 4])] ++
      (card, announce [10, 0, 0, 3]) ::
        [(card, announce [10, 0, 0, 5]), (secondCard, announce [10, 0, 0, 3])]) []) = some [2, 0, 0, 0, 0, 1] := by
  have hother : sender card (announce [10, 0, 0, 5]) = some ([10, 0, 0, 5], [2, 0, 0, 0, 0, 1]) := by decide
  refine (lookup_run_iff (by decide) (by decide) ?_).mpr (.inr (by decide))
  rintro f hf m' hcard hsame
  obtain rfl | rfl : f = (card, announce [10, 0, 0, 5]) ∨ f = (secondCard, announce [10, 0, 0, 3]) := by
    simpa using hf
  · cases hother.symm.trans hsame
  · cases hcard

/-- The sender after 64 others is not found. -/
theorem lookup_after_64 :
    sender card (announce [10, 0, 1, 64]) = some ([10, 0, 1, 64], [2, 0, 0, 0, 0, 1]) ∧
    lookup (card.index, [10, 0, 1, 64])
      (run ((List.range 65).map fun i => (card, announce [10, 0, 1, UInt8.ofNat i])) []) = none := by
  decide +kernel

end Arp
