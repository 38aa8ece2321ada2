import OnyxKernel.Mm.MapSpec

/-!
# User pages

What happens to pages that are already mapped. A step of the loader never takes a user page away: the
entry keeps its frame and may get more flags (`Upgraded`). Bytes written to the frame of a user page
change no table (`Quiet`).
-/

namespace Mm

open Infra Onyx StateProg

variable {w : Terms} {other : Nat → Prop} {root : Nat} {s t u : MmState}

/-! ## Flags -/

theorem and_or_self (a b : Nat) : a &&& (a ||| b) = a := by
  refine Nat.eq_of_testBit_eq fun i => ?_
  rw [Nat.testBit_and, Nat.testBit_or]
  cases a.testBit i <;> rfl

theorem and_trans {a b c : Nat} (hab : a &&& b = a) (hbc : b &&& c = b) : a &&& c = a := by
  rw [← hab, Nat.and_assoc, hbc]

theorem and_flagsMask {c : Nat} (hc : c < 1024) : c &&& pteFlagsMask = c := by
  have hmask : pteFlagsMask = 2 ^ 10 - 1 := rfl
  rw [hmask, Nat.and_two_pow_sub_one_eq_mod, Nat.mod_eq_of_lt hc]

theorem ppnOf_or {e c : Nat} (hc : c < 1024) : ppnOf (e ||| c) = ppnOf e := by
  have hdiv : (e ||| c) / 1024 = e / 1024 := by
    have h1024 : (1024 : Nat) = 2 ^ 10 := rfl
    rw [h1024, Nat.or_div_two_pow, Nat.div_eq_of_lt hc, Nat.or_zero]
  rw [ppnOf_eq, ppnOf_eq, hdiv]

theorem IsUser.or {e : Nat} (h : IsUser e) (c : Nat) : IsUser (e ||| c) := ⟨or_and_ne_zero h.1, or_and_ne_zero h.2⟩

/-! ## Pages that stay mapped -/

/-- Tables stay where they are, and user entries of the last level only get more flags. -/
structure Upgraded (root : Nat) (s t : MmState) : Prop where
  base : t.base = s.base
  total : t.total = s.total
  tables : ∀ {p : List (Fin 512)} {v : Nat}, p.length < 3 →
    sv39.descend s.mem root p = some v → sv39.descend t.mem root p = some v
  user : ∀ {p : List (Fin 512)} {v : Nat} {i : Fin 512}, p.length = 2 →
    sv39.descend s.mem root p = some v → IsUser (s.mem v i) →
      IsUser (t.mem v i) ∧ s.mem v i &&& t.mem v i = s.mem v i

theorem Upgraded.refl (root : Nat) (s : MmState) : Upgraded root s s :=
  ⟨rfl, rfl, fun _ h => h, fun _ _ h => ⟨h, Nat.and_self _⟩⟩

theorem Upgraded.trans (h : Upgraded root s t) (h' : Upgraded root t u) : Upgraded root s u where
  base := h'.base.trans h.base
  total := h'.total.trans h.total
  tables hp hv := h'.tables hp (h.tables hp hv)
  user := by
    intro p v i hp hv hu
    obtain ⟨hu', hflags⟩ := h.user hp hv hu
    obtain ⟨hu'', hflags'⟩ := h'.user hp (h.tables (by omega) hv) hu'
    exact ⟨hu'', and_trans hflags hflags'⟩

theorem KeptBut.upgraded {va : Nat} (h : KeptBut root (pageOf va) s t) (hnew : ¬ UserPage root va s) :
    Upgraded root s t where
  base := h.base
  total := h.total
  tables := h.tables
  user := by
    intro p v i hp hv hu
    have hne : ¬ pageOf va (p ++ [i]) := by
      intro he
      obtain ⟨rfl, hi⟩ := List.append_inj' (show p ++ [i] = pathTo va 2 ++ [idx 0 va] from he) rfl
      obtain rfl := List.singleton_inj.mp hi
      exact hnew ⟨v, hv, hu⟩
    rw [h.last hp hne hv]
    exact ⟨hu, Nat.and_self _⟩

/-- The page of `va` is a user page with at least the flags `c`. -/
def PageHas (root va c : Nat) (s : MmState) : Prop :=
  ∃ table, sv39.descend s.mem root (pathTo va 2) = some table ∧
    IsUser (s.mem table (idx 0 va)) ∧ c &&& s.mem table (idx 0 va) = c

theorem PageHas.userPage {va c : Nat} (h : PageHas root va c s) : UserPage root va s := by
  obtain ⟨table, hp, hu, -⟩ := h
  exact ⟨table, hp, hu⟩

theorem PageHas.upgraded {va c : Nat} (h : PageHas root va c s) (hup : Upgraded root s t) : PageHas root va c t := by
  obtain ⟨table, hp, hu, hflags⟩ := h
  have hlen := length_pathTo va 2
  obtain ⟨hu', hmore⟩ := hup.user hlen hp hu
  exact ⟨table, hup.tables (by omega) hp, hu', and_trans hflags hmore⟩

theorem MappedPage.has {lent : Nat → Bool} {va flags : Nat}
    (h : MappedPage lent root va flags t) (hu : flags &&& pteU ≠ 0) :
    PageHas root va flags t := by
  obtain ⟨table, g, hp, he, -, -⟩ := h
  refine ⟨table, hp, ?_, ?_⟩
  · rw [he]
    exact isUser_leafPte g hu
  · rw [he, leafPte, Nat.or_comm pteV flags, Nat.or_assoc]
    exact and_or_self _ _

/-! ## More flags for a page -/

section Reflag

variable {p : List (Fin 512)} {table c : Nat} {i : Fin 512}

theorem Space.reflag (h : Space w other root s) (hlen : p.length = 2)
    (hp : sv39.descend s.mem root p = some table) (hu : IsUser (s.mem table i)) (hc : c < 1024)
    (hentry : w.entry 2 (s.mem table i ||| c)) :
    Space w other root (s.setWord table i (s.mem table i ||| c)) := by
  have hppn : ppnOf (s.mem table i ||| c) = ppnOf (s.mem table i) := ppnOf_or hc
  have hheld : pteHeld s.base s.total w.lent 2 (s.mem table i ||| c) =
      pteHeld s.base s.total w.lent 2 (s.mem table i) := by
    simp only [pteHeld, if_neg (Nat.lt_irrefl 2), hppn, hu, hu.or c]
  have href : ∀ g, pteHeld s.base s.total w.lent 2 (s.mem table i) = some g →
      sv39.ref (s.holding w.lent) s.mem root p i = some g := by
    intro g hg
    rw [Radix.ref_eq (H := s.holding w.lent) (by show p.length < 3; omega) hp i, hlen]
    exact hg
  refine h.set (by omega) hp rfl rfl rfl ?_
  rw [hlen]
  refine ⟨by omega, fun g hg => ?_, fun f hf ho _ => ⟨hf, ho⟩, fun _ => ⟨by omega, fun f hf ho => ?_⟩,
    h.others, h.foreign, fun hx => (h.ledger hx).congr rfl fun _ => Iff.rfl,
    fun hn => absurd hn (by omega), fun _ => hentry⟩
  · rw [hheld] at hg
    obtain ⟨hused, hno⟩ := h.tree.mine_of_ref (href g hg)
    refine ⟨fun he => ?_, hused, hno, .inl hg⟩
    exact h.tree.apart (he ▸ href g hg)
  · by_cases hc' : pteHeld s.base s.total w.lent 2 (s.mem table i) = some f
    · exact .inr (hheld.trans hc')
    · exact .inl ⟨hf, ho, hc'⟩

theorem Space.reflag_upgraded (h : Space w other root s) {va : Nat}
    (hp : sv39.descend s.mem root (pathTo va 2) = some table) :
    Upgraded root s (s.setWord table (idx 0 va) (s.mem table (idx 0 va) ||| c)) := by
  have hlen := length_pathTo va 2
  have hedit : Edited root (pathTo va 2) (idx 0 va) s
      (s.setWord table (idx 0 va) (s.mem table (idx 0 va) ||| c)) :=
    h.edited (by omega) hp rfl rfl rfl
  have hkept := hedit.kept
  refine ⟨rfl, rfl, hkept.tables, ?_⟩
  intro p v i hq hv hu
  by_cases he : pageOf va (p ++ [i])
  · obtain ⟨rfl, hi⟩ := List.append_inj' (show p ++ [i] = pathTo va 2 ++ [idx 0 va] from he) rfl
    obtain rfl := List.singleton_inj.mp hi
    obtain rfl : v = table := Option.some.inj (hv.symm.trans hp)
    rw [setWord_entry rfl]
    exact ⟨hu.or c, and_or_self _ _⟩
  · rw [hkept.last hq he hv]
    exact ⟨hu, Nat.and_self _⟩

end Reflag

/-! ## The frames of user pages -/

theorem Space.frame_not_table (h : Space w other root s) {p : List (Fin 512)} {table : Nat} {i : Fin 512}
    (hlen : p.length = 2) (hp : sv39.descend s.mem root p = some table) (hu : IsUser (s.mem table i)) :
    ¬ sv39.IsTable s.mem root (ppnOf (s.mem table i)) := by
  intro htable
  obtain ⟨hused, hno⟩ := h.tree.mine_of_isTable htable
  have hbounds : s.base ≤ ppnOf (s.mem table i) ∧ ppnOf (s.mem table i) < s.base + s.total := by
    simpa [isManaged] using hused.1
  have hlent : w.lent (ppnOf (s.mem table i)) = false :=
    Bool.eq_false_iff.mpr fun hl => hno (h.foreign _ (w.lent_foreign _ hl))
  have href : sv39.ref (s.holding w.lent) s.mem root p i = some (ppnOf (s.mem table i)) := by
    rw [Radix.ref_eq (H := s.holding w.lent) (by show p.length < 3; omega) hp i, hlen]
    exact pteHeld_last_of_isUser hu hbounds.1 hbounds.2 hlent
  exact h.tree.not_isTable_of_ref (by show p.length + 1 = 3; omega) href htable

theorem Space.zero_not_table (h : Space w other root s) (hb : 0 < s.base) : ¬ sv39.IsTable s.mem root 0 := by
  intro htable
  have hm := (h.tree.mine_of_isTable htable).1.1
  have hbounds : s.base ≤ 0 ∧ 0 < s.base + s.total := by simpa [isManaged] using hm
  omega

/-! ## Bytes in frames that are no tables -/

/-- Only frames that are no tables differ. -/
structure Quiet (root : Nat) (s t : MmState) : Prop where
  base : t.base = s.base
  total : t.total = s.total
  used : ∀ f, t.Used f ↔ s.Used f
  log : t.log = s.log
  mem : ∀ v, sv39.IsTable s.mem root v → t.mem v = s.mem v

theorem Space.quiet (h : Space w other root s) (hq : Quiet root s t) : Space w other root t :=
  h.congr hq.base hq.total hq.mem (fun f => by rw [hq.used]) (fun f hf => (hq.used f).mpr (h.others f hf))
    h.foreign fun hx => (h.ledger hx).congr hq.log hq.used

theorem Quiet.upgraded (h : Quiet root s t) : Upgraded root s t where
  base := h.base
  total := h.total
  tables := by
    intro p v hp hv
    rw [(Radix.agree_of_tables h.mem (Nat.le_of_lt hp)).descend, hv]
  user := by
    intro p v i hp hv hu
    rw [h.mem v ⟨p, by show p.length < 3; omega, hv⟩]
    exact ⟨hu, Nat.and_self _⟩

theorem setBytes_mem (s : MmState) {f : Nat} : ∀ (bytes : List UInt8) (pa : Nat),
    pa % 4096 + bytes.length ≤ 4096 → f ≠ pa / 4096 → (s.setBytes pa bytes).mem f = s.mem f := by
  intro bytes
  induction bytes generalizing s with
  | nil => exact fun _ _ _ => rfl
  | cons b bytes ih =>
    intro pa hlen hne
    rw [List.length_cons] at hlen
    have hstep : (s.setByteAt pa b).mem f = s.mem f := by
      rw [MmState.setByteAt, MmState.setWord_mem, Function.update_of_ne hne]
    rw [MmState.setBytes]
    cases bytes with
    | nil => exact hstep
    | cons b' bytes =>
      rw [List.length_cons] at hlen
      rw [ih (s.setByteAt pa b) (pa + 1) (by rw [List.length_cons]; omega) (by omega), hstep]

theorem setBytes_rest (bytes : List UInt8) (s : MmState) (pa : Nat) :
    (s.setBytes pa bytes).base = s.base ∧ (s.setBytes pa bytes).total = s.total ∧
      (s.setBytes pa bytes).bitmap = s.bitmap ∧ (s.setBytes pa bytes).log = s.log := by
  induction bytes generalizing s pa with
  | nil => exact ⟨rfl, rfl, rfl, rfl⟩
  | cons b bytes ih => exact ih (s.setByteAt pa b) (pa + 1)

theorem quiet_setBytes {bytes : List UInt8} {pa : Nat} (hlen : pa % 4096 + bytes.length ≤ 4096)
    (hframe : ¬ sv39.IsTable s.mem root (pa / 4096)) : Quiet root s (s.setBytes pa bytes) := by
  obtain ⟨hb, ht, hbits, hlog⟩ := setBytes_rest bytes s pa
  refine ⟨hb, ht, fun f => ?_, hlog, fun v hv => setBytes_mem s bytes pa hlen fun he => hframe (he ▸ hv)⟩
  simp only [MmState.Used, isManaged, bmGet, hb, ht, hbits]

/-! ## Where a user page is found -/

section Find

variable {va table : Nat}

theorem findLeaf_descend : ∀ {k v : Nat}, k ≤ 3 → sv39.descend s.mem root (pathTo va k) = some v →
    findLeaf s.mem va 3 root = findLeaf s.mem va (3 - k) v
  | 0, v, _, h => by
    obtain rfl : root = v := Option.some.inj h
    rfl
  | k + 1, v, hk, h => by
    rw [pathTo, Radix.descend_concat] at h
    obtain ⟨u, hu, hnext⟩ := Option.bind_eq_some_iff.mp h
    have hkind : pteKind (s.mem u (idx (2 - k) va)) = .table v := Radix.next_eq_some.mp hnext
    have hnum : 3 - k = (2 - k) + 1 := by omega
    have hless : 3 - (k + 1) = 2 - k := by omega
    rw [findLeaf_descend (by omega) hu, hnum, hless, findLeaf]
    unfold pteKind at hkind
    split at hkind
    · cases hkind
    rename_i hv
    split at hkind
    · cases hkind
    rename_i hleaf
    simp only [if_neg hv, if_neg hleaf]
    rw [Kind.table.inj hkind]

theorem translateIf_userPage (test : Nat → Bool) (hroot : root ≠ 0) (hva : va % 4096 = 0)
    (hp : sv39.descend s.mem root (pathTo va 2) = some table) : translateIf test s root va = 0 ∨
      translateIf test s root va = ppnOf (s.mem table (idx 0 va)) * 4096 := by
  have hfind : findLeaf s.mem va 3 root = findLeaf s.mem va (3 - 2) table := findLeaf_descend (by omega) hp
  unfold translateIf
  rw [if_neg hroot, hfind]
  simp only [Nat.reduceSub, findLeaf]
  split
  · exact .inl rfl
  rename_i h
  split at h
  · cases h
  split at h
  · cases h
    split
    · right
      have hmod : va % 2 ^ (12 + 9 * 0) = 0 := hva
      rw [hmod, Nat.shiftLeft_eq, Nat.add_zero]
    · exact .inl rfl
  · cases h

theorem Space.translated_not_table (h : Space w other root s) (hb : 0 < s.base) {test : Nat → Bool}
    (hva : va % 4096 = 0) (hu : UserPage root va s) {off : Nat} (hoff : off < 4096) :
    ¬ sv39.IsTable s.mem root ((translateIf test s root va + off) / 4096) := by
  obtain ⟨table, hp, hu⟩ := hu
  have hroot : root ≠ 0 := fun he => h.zero_not_table hb (he ▸ ⟨[], by show 0 < 3; omega, rfl⟩)
  have hlen := length_pathTo va 2
  rcases translateIf_userPage test hroot hva hp with he | he
  · have hz : (0 + off) / 4096 = 0 := by omega
    rw [he, hz]
    exact h.zero_not_table hb
  · have hz : (ppnOf (s.mem table (idx 0 va)) * 4096 + off) / 4096 = ppnOf (s.mem table (idx 0 va)) := by
      omega
    rw [he, hz]
    exact h.frame_not_table hlen hp hu

end Find

end Mm
