import OnyxKernel.Mm.WalkSpec

/-!
# Changing one entry of an address space

A frame that was allocated and is not yet in the tree counts as one of the `other` frames (`Plus`);
mapping it moves it into the tree. `Edited` says what a change of one entry leaves alone.
-/

namespace Mm

open Infra Onyx StateProg Function

variable {w : Terms} {other other' : Nat → Prop} {root : Nat} {s t u : MmState}

def Plus (other : Nat → Prop) (g : Nat) : Nat → Prop := fun f => other f ∨ f = g

/-! ## Frames outside the tree -/

theorem Space.congr (h : Space w other root s) (hb : t.base = s.base) (ht : t.total = s.total)
    (hmem : ∀ v, sv39.IsTable s.mem root v → t.mem v = s.mem v)
    (hmine : ∀ f, t.Used f ∧ ¬ other' f ↔ s.Used f ∧ ¬ other f)
    (hothers : ∀ f, other' f → t.Used f) (hforeign : ∀ f, w.foreign f → other' f)
    (hledger : w.exact → Ledger w.foreign t) : Space w other' root t := by
  have hdesc : ∀ {p : List (Fin 512)} {v : Nat}, p.length < 3 →
      sv39.descend t.mem root p = some v → sv39.descend s.mem root p = some v := by
    intro p v hp hv
    rw [(Radix.agree_of_tables hmem (Nat.le_of_lt hp)).descend] at hv
    exact hv
  refine ⟨?_, fun hx => ?_, ?_, ?_, hothers, hforeign, hledger, ?_⟩
  · rw [holding_congr hb ht]
    exact h.tree.congr hmem fun f hf => (hmine f).mpr hf
  · rw [holding_congr hb ht]
    exact (h.full hx).congr hmem fun f hf => (hmine f).mp hf
  · intro p v i hp hv
    have hv' := hdesc hp hv
    rw [hmem v ⟨p, hp, hv'⟩]
    exact (h.fine i hp hv').congr hb ht
  · intro p v i hp hv hu
    have hv' := hdesc hp hv
    rw [hmem v ⟨p, hp, hv'⟩] at hu ⊢
    exact h.user hp hv' hu
  · rw [hb, ht]
    exact h.bound

variable {ex : List (Fin 512) → Prop} {flags g va : Nat} {E : Errno → MmState → Prop}

theorem Space.gave (h : Space w (Plus other g) root s) (ho : ¬ other g)
    (hforeign : ∀ f, w.foreign f → other f) (hg : Gave s g t) : Space w other root t := by
  refine h.congr hg.base hg.total (fun v _ => by rw [hg.mem]) (fun f => ?_)
    (fun f hf => (hg.used f).mpr ⟨h.others f (.inl hf), fun he => ho (he ▸ hf)⟩) hforeign
    fun hx => (h.ledger hx).gave hg (h.others g (.inr rfl)) fun hc => ho (hforeign g hc)
  rw [hg.used]
  constructor
  · rintro ⟨⟨hf, hne⟩, hn⟩
    exact ⟨hf, fun hc => hc.elim hn hne⟩
  · rintro ⟨hf, hn⟩
    exact ⟨⟨hf, fun he => hn (.inr he)⟩, fun hc => hn (.inl hc)⟩

/-! ## Changing an entry -/

/-- `t` differs from `s` at entry `i` of the table at `p`, and below. -/
structure Edited (root : Nat) (p : List (Fin 512)) (i : Fin 512) (s t : MmState) : Prop where
  base : t.base = s.base
  total : t.total = s.total
  tables : ∀ {q : List (Fin 512)}, q.length < 3 → ¬ (p ++ [i]) <+: q →
    sv39.descend t.mem root q = sv39.descend s.mem root q
  entries : ∀ {q : List (Fin 512)} {v : Nat} (j : Fin 512), q.length < 3 →
    ¬ (p ++ [i]) <+: (q ++ [j]) → sv39.descend s.mem root q = some v → t.mem v j = s.mem v j
  look : ∀ {q : List (Fin 512)}, q.length = 3 → ¬ (p ++ [i]) <+: q → look t root q = look s root q

/-- What the change of an entry from `old` to `new` at depth `n` does to the frames. The new entry
points to no table, and what it holds was held by the old one or was outside the tree. -/
structure Exchange (w : Terms) (other other' : Nat → Prop) (root : Nat) (s t : MmState) (n old new : Nat) : Prop where
  next : n < 2 → sv39.next new = none
  holds : ∀ g, pteHeld s.base s.total w.lent n new = some g → g ≠ root ∧ t.Used g ∧ ¬ other' g ∧
    (pteHeld s.base s.total w.lent n old = some g ∨ ¬ (s.Used g ∧ ¬ other g))
  mine : ∀ f, s.Used f → ¬ other f → pteHeld s.base s.total w.lent n old ≠ some f →
    t.Used f ∧ ¬ other' f
  lost : w.exact → (n < 2 → sv39.next old = none) ∧ ∀ f, t.Used f → ¬ other' f →
    (s.Used f ∧ ¬ other f ∧ pteHeld s.base s.total w.lent n old ≠ some f) ∨
      pteHeld s.base s.total w.lent n new = some f
  others : ∀ f, other' f → t.Used f
  foreign : ∀ f, w.foreign f → other' f
  ledger : w.exact → Ledger w.foreign t
  fine : Fine w s n new
  user : IsUser new → w.entry n new

section Set

variable {p : List (Fin 512)} {table e : Nat} {i : Fin 512}

theorem sameBut_setWord (hmem : t.mem = (s.setWord table i e).mem) : sv39.SameBut s.mem t.mem root table i := by
  intro v _ j hj
  rw [hmem, MmState.setWord_mem]
  by_cases hv : v = table
  · subst hv
    simp only [update_self]
    rw [update_of_ne (hj rfl)]
  · rw [update_of_ne hv]

theorem setWord_entry (hmem : t.mem = (s.setWord table i e).mem) : t.mem table i = e := by
  rw [hmem, MmState.setWord_mem]
  simp only [update_self]

variable (h : Space w other root s) (hlen : p.length < 3) (hp : sv39.descend s.mem root p = some table)
  (hb : t.base = s.base) (ht : t.total = s.total) (hmem : t.mem = (s.setWord table i e).mem)
include h hlen hp hb ht hmem

theorem Space.edited : Edited root p i s t where
  base := hb
  total := ht
  tables := by
    intro q hq hpre
    rw [h.tree.descend_same (sameBut_setWord hmem) hlen hp (Nat.le_of_lt hq) hpre]
  entries := by
    intro q v j hq hpre hv
    exact h.tree.same_entry (sameBut_setWord hmem) hlen hp hq hv hpre
  look := by
    intro q hq hpre
    rw [Mm.look, Mm.look, h.tree.find_same (sameBut_setWord hmem) hlen hp (Nat.le_of_eq hq) hpre]

theorem Space.set (hx : Exchange w other other' root s t p.length (s.mem table i) e) : Space w other' root t := by
  have hsame : sv39.SameBut s.mem t.mem root table i := sameBut_setWord hmem
  have hentry := setWord_entry hmem
  -- Below the entry there is no table.
  have hpaths : ∀ {q : List (Fin 512)} {v : Nat}, q.length < 3 →
      sv39.descend t.mem root q = some v →
      ¬ (p ++ [i]) <+: q ∧ sv39.descend s.mem root q = some v := by
    intro q v hq hv
    have hpre : ¬ (p ++ [i]) <+: q := fun hpre => by
      have hle := hpre.length_le
      rw [List.length_append, List.length_singleton] at hle
      have hnext : sv39.next (t.mem table i) = none := by rw [hentry, hx.next (by omega)]
      exact Radix.not_extends (h.tree.descend_table hsame hlen hp) hnext hv hpre
    rw [h.tree.descend_same hsame hlen hp (Nat.le_of_lt hq) hpre] at hv
    exact ⟨hpre, hv⟩
  have hcases : ∀ {q : List (Fin 512)} {v : Nat} (j : Fin 512), q.length < 3 →
      sv39.descend t.mem root q = some v →
      (t.mem v j = s.mem v j ∧ sv39.descend s.mem root q = some v) ∨
        (q = p ∧ t.mem v j = e) := by
    intro q v j hq hv
    obtain ⟨hpre, hv⟩ := hpaths hq hv
    rcases h.tree.entry_cases hsame hlen hp hq hv hpre j with ⟨rfl, rfl⟩ | ⟨-, he⟩
    · obtain rfl : table = v := Option.some.inj (hp.symm.trans hv)
      exact .inr ⟨rfl, hentry⟩
    · exact .inl ⟨he, hv⟩
  refine ⟨?_, fun hexact => ?_, ?_, ?_, hx.others, hx.foreign, hx.ledger, ?_⟩
  · rw [holding_congr hb ht]
    have hroot : pteHeld s.base s.total w.lent p.length (s.mem table i) ≠ some root := fun hc => by
      have href := Radix.ref_eq (H := s.holding w.lent) hlen hp i
      exact h.tree.apart (href.trans hc)
    refine h.tree.rewrite hsame hlen hp ?_ ?_ ?_ ?_
    · intro hmore g hg
      rw [hentry, hx.next (Nat.lt_of_succ_lt_succ hmore)] at hg
      cases hg
    · intro g hg
      rw [hentry] at hg
      obtain ⟨h1, h2, h3, h4⟩ := hx.holds g hg
      exact ⟨h1, ⟨h2, h3⟩, h4⟩
    · exact fun f hf hne => hx.mine f hf.1 hf.2 hne
    · exact hx.mine root h.tree.root.1 h.tree.root.2 hroot
  · rw [holding_congr hb ht]
    refine (h.full hexact).rewrite h.tree hsame hlen hp
      (fun hmore => (hx.lost hexact).1 (Nat.lt_of_succ_lt_succ hmore)) ?_
    rintro f ⟨hf, ho⟩
    rw [hentry]
    rcases (hx.lost hexact).2 f hf ho with ⟨h1, h2, h3⟩ | hnew
    · exact .inl ⟨⟨h1, h2⟩, h3⟩
    · exact .inr hnew
  · intro q v j hq hv
    rcases hcases j hq hv with ⟨he, hv⟩ | ⟨rfl, he⟩
    · rw [he]
      exact (h.fine j hq hv).congr hb ht
    · rw [he]
      exact hx.fine.congr hb ht
  · intro q v j hq hv hu
    rcases hcases j hq hv with ⟨he, hv⟩ | ⟨rfl, he⟩
    · rw [he] at hu ⊢
      exact h.user hq hv hu
    · rw [he] at hu ⊢
      exact hx.user hu
  · rw [hb, ht]
    exact h.bound

end Set

/-! ## Changing pages -/

/-- `t` has the tables of `s`, and the last-level entries and the translations except for the pages
in `ex`. -/
structure KeptBut (root : Nat) (ex : List (Fin 512) → Prop) (s t : MmState) : Prop where
  base : t.base = s.base
  total : t.total = s.total
  tables : ∀ {p : List (Fin 512)} {v : Nat}, p.length < 3 →
    sv39.descend s.mem root p = some v → sv39.descend t.mem root p = some v
  last : ∀ {p : List (Fin 512)} {v : Nat} {i : Fin 512}, p.length = 2 → ¬ ex (p ++ [i]) →
    sv39.descend s.mem root p = some v → t.mem v i = s.mem v i
  look : ∀ {q : List (Fin 512)}, q.length = 3 → ¬ ex q → look t root q = look s root q

def noPage : List (Fin 512) → Prop := fun _ => False

def pageOf (va : Nat) : List (Fin 512) → Prop := fun q => q = pathTo va 3

section Kept

variable {ex ex' : List (Fin 512) → Prop}

theorem Grew.kept (h : Grew root s t) : KeptBut root noPage s t :=
  ⟨h.base, h.total, h.tables, fun hp _ hv => h.last _ hp hv, fun hq _ => h.look _ hq⟩

theorem KeptBut.mono (h : KeptBut root ex s t) (hex : ∀ q, ex q → ex' q) : KeptBut root ex' s t :=
  ⟨h.base, h.total, h.tables, fun hp hn hv => h.last hp (fun hc => hn (hex _ hc)) hv,
    fun hq hn => h.look hq fun hc => hn (hex _ hc)⟩

theorem KeptBut.trans (h : KeptBut root ex s t) (h' : KeptBut root ex t u) : KeptBut root ex s u where
  base := h'.base.trans h.base
  total := h'.total.trans h.total
  tables hp hv := h'.tables hp (h.tables hp hv)
  last hp hn hv := (h'.last hp hn (h.tables (by omega) hv)).trans (h.last hp hn hv)
  look hq hn := (h'.look hq hn).trans (h.look hq hn)

theorem KeptBut.refl (root : Nat) (ex : List (Fin 512) → Prop) (s : MmState) : KeptBut root ex s s :=
  ⟨rfl, rfl, fun _ h => h, fun _ _ _ => rfl, fun _ _ => rfl⟩

theorem keptBut_congr (hb : t.base = s.base) (ht : t.total = s.total)
    (hmem : ∀ v, sv39.IsTable s.mem root v → t.mem v = s.mem v) : KeptBut root ex s t where
  base := hb
  total := ht
  tables := by
    intro p v hp hv
    rw [(Radix.agree_of_tables hmem (Nat.le_of_lt hp)).descend, hv]
  last := by
    intro p v i hp _ hv
    rw [hmem v ⟨p, by show p.length < 3; omega, hv⟩]
  look hq _ := by rw [look, look, Radix.find_congr hmem (Nat.le_of_eq hq)]

theorem grew_congr (hb : t.base = s.base) (ht : t.total = s.total)
    (hp : t.userPages = s.userPages) (hu : ∀ f, s.Used f → t.Used f)
    (hmem : ∀ v, sv39.IsTable s.mem root v → t.mem v = s.mem v) : Grew root s t := by
  have hk : KeptBut root noPage s t := keptBut_congr hb ht hmem
  exact ⟨hb, ht, hp, hu, hk.tables, fun _ hp hv => hk.last hp nofun hv, fun _ hq => hk.look hq nofun⟩

theorem Space.took (h : Space w other root s) (hg : Took s g t) : Walked w (Plus other g) root s t := by
  have hmem : ∀ v, sv39.IsTable s.mem root v → t.mem v = s.mem v := fun v hv => by
    rw [hg.mem, update_of_ne (h.ne_fresh hg.fresh hv)]
  refine ⟨h.congr hg.base hg.total hmem (fun f => ?_) ?_ (fun f hf => .inl (h.foreign f hf))
      fun hx => (h.ledger hx).took hg.log hg.fresh hg.used fun f hf => h.others f (h.foreign f hf),
    grew_congr hg.base hg.total hg.userPages (fun f hf => (hg.used f).mpr (.inl hf)) hmem⟩
  · rw [hg.used]
    constructor
    · rintro ⟨hf | rfl, hn⟩
      · exact ⟨hf, fun hc => hn (.inl hc)⟩
      · exact absurd (.inr rfl) hn
    · rintro ⟨hf, hn⟩
      refine ⟨.inl hf, ?_⟩
      rintro (hc | rfl)
      · exact hn hc
      · exact hg.fresh hf
  · rintro f (hf | rfl)
    · exact (hg.used f).mpr (.inl (h.others f hf))
    · exact (hg.used f).mpr (.inr rfl)

theorem Edited.kept {va : Nat} (h : Edited root (pathTo va 2) (idx 0 va) s t) : KeptBut root (pageOf va) s t := by
  have hpath : pathTo va 3 = pathTo va 2 ++ [idx 0 va] := rfl
  have hexact : ∀ {q : List (Fin 512)}, q.length = 3 → (pathTo va 2 ++ [idx 0 va]) <+: q →
      q = pathTo va 3 := by
    intro q hq hpre
    rw [hpath]
    exact (hpre.eq_of_length (by rw [← hpath, length_pathTo, hq])).symm
  refine ⟨h.base, h.total, ?_, ?_, ?_⟩
  · intro p v hp hv
    rw [h.tables hp fun hpre => ?_]
    · exact hv
    have hle := hpre.length_le
    rw [← hpath, length_pathTo] at hle
    omega
  · intro p v i hp hn hv
    refine h.entries i (by omega) (fun hpre => hn (hexact ?_ hpre)) hv
    rw [List.length_append, List.length_singleton, hp]
  · exact fun hq hn => h.look hq fun hpre => hn (hexact hq hpre)

end Kept

/-- The page of `va` has a user entry at the last level. -/
def UserPage (root va : Nat) (s : MmState) : Prop :=
  ∃ table, sv39.descend s.mem root (pathTo va 2) = some table ∧
    IsUser (s.mem table (idx 0 va))

theorem UserPage.kept (h : UserPage root va s)
    (hk : KeptBut root ex s t) (hex : ¬ ex (pathTo va 3)) : UserPage root va t := by
  obtain ⟨table, hp, hu⟩ := h
  have hlen := length_pathTo va 2
  refine ⟨table, hk.tables (by omega) hp, ?_⟩
  rw [hk.last hlen hex hp]
  exact hu

/-! ## Mapping a new page -/

/-- The entry that `map_one` writes. -/
def leafPte (flags f : Nat) : Nat := pteV ||| flags ||| f <<< 10

theorem leafPte_and (flags f : Nat) {c : Nat} (hc : c < 1024) : leafPte flags f &&& c = (pteV ||| flags) &&& c :=
  pte_and_low _ _ hc

theorem ppnOf_leafPte {f : Nat} (hflags : flags < 1024) (hf : f < 2 ^ 44) : ppnOf (leafPte flags f) = f :=
  ppnOf_pte (Nat.or_lt_two_pow (n := 10) (by decide) hflags) hf

theorem or_and_ne_zero {a b c : Nat} (h : a &&& c ≠ 0) : (a ||| b) &&& c ≠ 0 := by
  rw [Nat.and_or_distrib_right]
  have hle : a &&& c ≤ a &&& c ||| b &&& c := Nat.left_le_or
  omega

theorem isUser_leafPte (f : Nat) (hu : flags &&& pteU ≠ 0) : IsUser (leafPte flags f) := by
  constructor
  · rw [leafPte_and _ _ (by decide)]
    exact or_and_ne_zero (by decide)
  · rw [leafPte_and _ _ (by decide), Nat.or_comm]
    exact or_and_ne_zero hu

section Held

variable {base total e g : Nat} {lent : Nat → Bool}

theorem pteHeld_last_of_isUser (hu : IsUser e) (h1 : base ≤ ppnOf e) (h2 : ppnOf e < base + total)
    (hl : lent (ppnOf e) = false) : pteHeld base total lent 2 e = some (ppnOf e) := by
  rw [pteHeld, if_neg (by omega), if_pos ⟨hu, h1, h2, hl⟩]

theorem pteHeld_last_of_not_isUser (h : ¬ IsUser e) : pteHeld base total lent 2 e = none := by
  rw [pteHeld, if_neg (by omega), if_neg fun hc => h hc.1]

end Held

theorem mapOne_page (hQ : Splits w.entry) (hs : Space w (Plus other g) root s)
    (ho : ¬ other g) (hforeign : ∀ f, w.foreign f → other f) (hg : isManaged s g = true)
    (hflags : flags < 1024) (hu : flags &&& pteU ≠ 0) (hq : w.entry 2 (leafPte flags g)) :
    wp (mapOne root va (g <<< 12) flags 0)
      (fun _ t => Space w other root t ∧ KeptBut root (pageOf va) s t ∧ ¬ UserPage root va s ∧
        ∃ table, sv39.descend t.mem root (pathTo va 2) = some table ∧
          t.mem table (idx 0 va) = leafPte flags g)
      (fun e t => Walked w (Plus other g) root s t ∧ (e = .noMem ∨ UserPage root va t)) s := by
  have hbounds : s.base ≤ g ∧ g < s.base + s.total := by
    simpa [isManaged] using hg
  have hlt : g < 2 ^ 44 := lt_of_lt_of_le hbounds.2 hs.bound
  have hppn := ppnOf_leafPte hflags hlt
  unfold mapOne
  rw [if_neg (by omega), if_neg (by omega)]
  refine wp_seq (walk_create hQ hs va (by omega)) ?_ fun _ _ he => ⟨he.2, .inl he.1⟩
  rintro ⟨table, i⟩ t ⟨ht, -, hp, rfl⟩
  rw [wp_bind, readPte, wp_gets]
  split
  · rename_i hold
    exact ⟨ht, .inr ⟨table, hp, hold⟩⟩
  rename_i hold
  have hnew : (g <<< 12) >>> 12 = g := by
    rw [Nat.shiftLeft_shiftRight]
  rw [writePte, wp_modify, hnew]
  have hlen := length_pathTo va 2
  have hlent : w.lent g = false := Bool.eq_false_iff.mpr fun hl => ho (hforeign g (w.lent_foreign g hl))
  have hheld : pteHeld t.base t.total w.lent 2 (leafPte flags g) = some g := by
    have hlast : pteHeld t.base t.total w.lent 2 (leafPte flags g) = some (ppnOf (leafPte flags g)) := by
      refine pteHeld_last_of_isUser (isUser_leafPte g hu) ?_ ?_ (by rw [hppn, hlent])
      · rw [hppn, ht.grew.base]
        exact hbounds.1
      · rw [hppn, ht.grew.base, ht.grew.total]
        exact hbounds.2
    rw [hlast, hppn]
  have hroot : g ≠ root := fun he => ht.space.tree.root.2 (.inr he.symm)
  have hold' : pteHeld t.base t.total w.lent 2 (t.mem table (idx 0 va)) = none := pteHeld_last_of_not_isUser hold
  have hused := ht.space.others g (.inr rfl)
  have hset : Space w other root (t.setWord table (idx 0 va) (leafPte flags g)) := by
    refine ht.space.set (p := pathTo va 2) (by omega) hp rfl rfl rfl ?_
    rw [hlen]
    refine ⟨by omega, fun f hf => ?_, fun f hf hn _ => ⟨hf, fun hc => hn (.inl hc)⟩,
      fun _ => ⟨by omega, fun f hf hn => ?_⟩, fun f hf => ht.space.others f (.inl hf), hforeign,
      fun hx => (ht.space.ledger hx).congr rfl fun _ => Iff.rfl, fun hc => absurd hc (by omega), fun _ => hq⟩
    · rw [hheld] at hf
      cases hf
      exact ⟨hroot, hused, ho, .inr fun hc => hc.2 (.inr rfl)⟩
    · by_cases hfg : f = g
      · exact .inr (hfg ▸ hheld)
      · exact .inl ⟨hf, fun hc => hc.elim hn hfg, by simp [hold']⟩
  have hedit : Edited root (pathTo va 2) (idx 0 va) t (t.setWord table (idx 0 va) (leafPte flags g)) :=
    ht.space.edited (by omega) hp rfl rfl rfl
  refine ⟨hset, (ht.grew.kept.mono fun _ => False.elim).trans hedit.kept, ?_, table, ?_, setWord_entry rfl⟩
  · rintro ⟨table', hp', hu'⟩
    obtain rfl : table' = table := Option.some.inj ((ht.grew.tables (by omega) hp').symm.trans hp)
    rw [← ht.grew.last _ hlen hp'] at hu'
    exact hold hu'
  · exact hedit.kept.tables (by omega) hp

theorem Space.setUserPages (h : Space w other root s) (n : Nat) : Space w other root { s with userPages := n } :=
  h.congr rfl rfl (fun _ _ => rfl) (fun _ => Iff.rfl) h.others h.foreign
    fun hx => (h.ledger hx).congr rfl fun _ => Iff.rfl

theorem keptBut_setUserPages (root : Nat) (ex : List (Fin 512) → Prop) (s : MmState) (n : Nat) :
    KeptBut root ex s { s with userPages := n } :=
  keptBut_congr rfl rfl fun _ _ => rfl

theorem userPagesRelease_spec (h : Space w other root t)
    (hk : KeptBut root ex s t) (n : Nat) :
    wp (userPagesRelease n) (fun _ v => Space w other root v ∧ KeptBut root ex s v) E t :=
  ⟨h.setUserPages _, hk.trans (keptBut_setUserPages root ex t _)⟩

theorem giveBack_spec (h : Space w (Plus other g) root t) (ho : ¬ other g)
    (hforeign : ∀ f, w.foreign f → other f) (hk : KeptBut root ex s t) :
    wp (do free g; userPagesRelease 1) (fun _ v => Space w other root v ∧ KeptBut root ex s v) E t := by
  refine wp_then (free_spec t g) fun _ v hv => ?_
  refine userPagesRelease_spec (h.gave ho hforeign hv) (hk.trans ?_) 1
  exact keptBut_congr hv.base hv.total fun w _ => by rw [hv.mem]

/-- The page of `va` is mapped with these flags to a page that is not lent. -/
def MappedPage (lent : Nat → Bool) (root va flags : Nat) (t : MmState) : Prop :=
  ∃ table g, sv39.descend t.mem root (pathTo va 2) = some table ∧
    t.mem table (idx 0 va) = leafPte flags g ∧ g < 2 ^ 44 ∧ lent g = false

theorem mapFreshPage_spec (hQ : Splits w.entry) (hs : Space w other root s)
    (hflags : flags < 1024) (hu : flags &&& pteU ≠ 0)
    (hq : ∀ g, isManaged s g = true → w.lent g = false → w.entry 2 (leafPte flags g)) :
    wp (mapFreshPage root va flags)
      (fun _ t => Space w other root t ∧ KeptBut root (pageOf va) s t ∧ ¬ UserPage root va s ∧
        MappedPage w.lent root va flags t)
      (fun e t => Space w other root t ∧ KeptBut root noPage s t ∧ (e = .noMem ∨ UserPage root va t)) s := by
  refine wp_seq (userPageTake_spec s) ?_ fun _ t he => by
    obtain ⟨rfl, rfl, -⟩ := he
    exact ⟨hs, KeptBut.refl root noPage t, .inl rfl⟩
  rintro - t ⟨-, rfl⟩
  have hst := hs.setUserPages (s.userPages + 1)
  have hkt := keptBut_setUserPages root noPage s (s.userPages + 1)
  refine wp_then (wp_onError (wp_mono (alloc_spec _) (fun _ _ h => h) fun _ v he => ?_)) ?_
  · obtain ⟨rfl, rfl, -⟩ := he
    exact wp_imp (userPagesRelease_spec hst hkt 1) fun _ _ h => ⟨h.1, h.2, .inl rfl⟩
  intro g v hg
  have hog : ¬ other g := fun ho => hg.fresh (hst.others g ho)
  have hlent : w.lent g = false := Bool.eq_false_iff.mpr fun hl => hog (hs.foreign g (w.lent_foreign g hl))
  have hv := hst.took hg
  have hmanaged : isManaged v g = true := by
    rw [isManaged_congr hg.base hg.total]
    exact hg.managed
  refine wp_onError (wp_mono
    (mapOne_page hQ hv.space hog hs.foreign hmanaged hflags hu (hq g hg.managed hlent))
    (fun _ x hx => ?_) fun _ x hx => ?_)
  · obtain ⟨hspace, hkept, hold, table, hp, he⟩ := hx
    refine ⟨hspace, ((hkt.mono nofun).trans (hv.grew.kept.mono nofun)).trans hkept, fun hold' => ?_,
      table, g, hp, he, ?_, hlent⟩
    · exact hold (hold'.kept (hkt.trans hv.grew.kept) nofun)
    · have hbounds : s.base ≤ g ∧ g < s.base + s.total := by simpa [isManaged] using hg.managed
      exact lt_of_lt_of_le hbounds.2 hs.bound
  · obtain ⟨hx, herr⟩ := hx
    refine wp_imp (giveBack_spec hx.space hog hs.foreign (KeptBut.refl root noPage x)) fun _ y hy => ?_
    exact ⟨hy.1, ((hkt.trans hv.grew.kept).trans hx.grew.kept).trans hy.2,
      herr.imp_right fun hu => hu.kept hy.2 nofun⟩

/-! ## The software translation -/

section Find

variable {va : Nat}

theorem findLeaf_some {w level pte : Nat} : ∀ {n table : Nat}, n ≤ 3 →
    sv39.descend s.mem root (pathTo va (3 - n)) = some table →
    findLeaf s.mem va n table = some (w, level, pte) →
    level < n ∧ sv39.descend s.mem root (pathTo va (2 - level)) = some w ∧
      s.mem w (idx level va) = pte ∧ pteKind pte = .leaf
  | 0, _, _, _, h => by cases h
  | n + 1, table, hn, hp, h => by
    unfold findLeaf at h
    simp only at h
    split at h
    · cases h
    rename_i hv
    split at h
    · rename_i hleaf
      cases h
      have hnum : 3 - (level + 1) = 2 - level := by omega
      rw [hnum] at hp
      exact ⟨by omega, hp, rfl, by rw [pteKind, if_neg hv, if_pos hleaf]⟩
    · rename_i hleaf
      have hkind : pteKind (s.mem table (idx n va)) = .table (ppnOf (s.mem table (idx n va))) := by
        rw [pteKind, if_neg hv, if_neg hleaf]
      have hnum : 3 - n = 3 - (n + 1) + 1 := by omega
      have hidx : 2 - (3 - (n + 1)) = n := by omega
      have hbelow : sv39.descend s.mem root (pathTo va (3 - n)) = some (ppnOf (s.mem table (idx n va))) := by
        rw [hnum, pathTo, hidx, Radix.descend_concat, hp, Option.bind_some]
        exact Radix.next_eq_some.mpr hkind
      obtain ⟨h1, h2⟩ := findLeaf_some (by omega) hbelow h
      exact ⟨by omega, h2⟩

theorem translateIf_ne_zero {test : Nat → Bool} (h : translateIf test s root va ≠ 0) :
    ∃ w level pte, level < 3 ∧ sv39.descend s.mem root (pathTo va (2 - level)) = some w ∧
      s.mem w (idx level va) = pte ∧ pteKind pte = .leaf ∧ test pte = true ∧
      findLeaf s.mem va 3 root = some (w, level, pte) := by
  unfold translateIf at h
  split at h
  · exact absurd rfl h
  split at h
  · exact absurd rfl h
  rename_i w level pte hfind
  split at h
  · rename_i htest
    obtain ⟨h1, h2, h3, h4⟩ := findLeaf_some (by omega) rfl hfind
    exact ⟨w, level, pte, h1, h2, h3, h4, htest, hfind⟩
  · exact absurd rfl h

end Find

end Mm
