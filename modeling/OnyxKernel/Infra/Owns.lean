import Mathlib.Logic.Function.Basic

/-!
# Ownership of resources

Resources of type `β` are handed out by an allocator and referenced from places of type `ι`.
`Owns ref used loose` says that every resource is accounted for once: a resource in use is either
referenced from exactly one place or *loose*, that is, held by code that has not stored it yet or
has already dropped the reference.

An allocation makes a loose resource (`take`), storing it attaches it (`attach`), dropping a
reference makes it loose again (`detach`), and freeing ends its use (`release`). An operation that
starts and ends with no loose resource has neither leaked nor shared one.
-/

namespace Infra

variable {ι β : Type}

/-- Every resource in use is referenced from exactly one place, or is loose. -/
structure Owns (ref : ι → Option β) (used loose : β → Prop) : Prop where
  inj : ∀ {p q b}, ref p = some b → ref q = some b → p = q
  used_iff : ∀ b, used b ↔ (∃ p, ref p = some b) ∨ loose b
  apart : ∀ {p b}, ref p = some b → ¬ loose b

def nothing : β → Prop := fun _ => False

section

variable {ref ref' : ι → Option β} {used used' loose loose' : β → Prop}

section

variable (h : Owns ref used loose) {b : β}
include h

theorem Owns.used_of_ref {p : ι} (hp : ref p = some b) : used b := (h.used_iff b).mpr (.inl ⟨p, hp⟩)

theorem Owns.used_of_loose (hb : loose b) : used b := (h.used_iff b).mpr (.inr hb)

theorem Owns.congr (hr : ∀ p, ref' p = ref p)
    (hu : ∀ b, used' b ↔ used b) (hl : ∀ b, loose' b ↔ loose b) : Owns ref' used' loose' := by
  refine ⟨fun hp hq => ?_, fun b => ?_, fun hp => ?_⟩
  · rw [hr] at hp hq
    exact h.inj hp hq
  · rw [hu, hl, h.used_iff]
    simp only [hr]
  · rw [hr] at hp
    rw [hl]
    exact h.apart hp

theorem Owns.take (hb : ¬ used b) (hu : ∀ c, used' c ↔ used c ∨ c = b)
    (hl : ∀ c, loose' c ↔ loose c ∨ c = b) : Owns ref used' loose' := by
  refine ⟨fun hp hq => h.inj hp hq, fun c => ?_, fun {p c} hp hc => ?_⟩
  · rw [hu, hl, h.used_iff, or_assoc]
  · rcases (hl c).mp hc with hc | rfl
    · exact h.apart hp hc
    · exact hb (h.used_of_ref hp)

theorem Owns.release (hb : loose b) (hu : ∀ c, used' c ↔ used c ∧ c ≠ b)
    (hl : ∀ c, loose' c ↔ loose c ∧ c ≠ b) : Owns ref used' loose' := by
  refine ⟨fun hp hq => h.inj hp hq, fun c => ?_, fun hp hc => h.apart hp ((hl _).mp hc).1⟩
  rw [hu, hl, h.used_iff]
  constructor
  · rintro ⟨hp | hc, hne⟩
    · exact .inl hp
    · exact .inr ⟨hc, hne⟩
  · rintro (⟨p, hp⟩ | ⟨hc, hne⟩)
    · exact ⟨.inl ⟨p, hp⟩, fun he => h.apart (he ▸ hp) hb⟩
    · exact ⟨.inr hc, hne⟩

/-- References move: `ref'` differs from `ref` at the places `P` only, where both hold resources
that are loose on the other side. -/
theorem Owns.rebase (P : ι → Prop) (hout : ∀ p, ¬ P p → ref' p = ref p)
    (hinj : ∀ {p q b}, P p → P q → ref' p = some b → ref' q = some b → p = q)
    (hnew : ∀ {p b}, P p → ref' p = some b → loose b ∨ ∃ q, P q ∧ ref q = some b)
    (hl : ∀ b, loose' b ↔ (loose b ∨ ∃ p, P p ∧ ref p = some b) ∧
      ¬ ∃ p, P p ∧ ref' p = some b) : Owns ref' used loose' := by
  -- A resource referenced from `P` after the move is not referenced from outside `P`.
  have hsplit : ∀ {p q b}, P p → ref' p = some b → ¬ P q → ref q ≠ some b := by
    intro p q b hp hpb hq hqb
    rcases hnew hp hpb with hb | ⟨r, hr, hrb⟩
    · exact h.apart hqb hb
    · exact hq (h.inj hrb hqb ▸ hr)
  refine ⟨fun {p q b} hp hq => ?_, fun b => ?_, fun {p b} hp hb => ?_⟩
  · by_cases hP : P p <;> by_cases hQ : P q
    · exact hinj hP hQ hp hq
    · rw [hout q hQ] at hq
      exact absurd hq (hsplit hP hp hQ)
    · rw [hout p hP] at hp
      exact absurd hp (hsplit hQ hq hP)
    · rw [hout p hP] at hp
      rw [hout q hQ] at hq
      exact h.inj hp hq
  · rw [hl, h.used_iff]
    constructor
    · intro hb
      by_cases hin : ∃ p, P p ∧ ref' p = some b
      · obtain ⟨p, -, hp⟩ := hin
        exact .inl ⟨p, hp⟩
      · rcases hb with ⟨p, hp⟩ | hb
        · by_cases hP : P p
          · exact .inr ⟨.inr ⟨p, hP, hp⟩, hin⟩
          · exact .inl ⟨p, by rw [hout p hP, hp]⟩
        · exact .inr ⟨.inl hb, hin⟩
    · rintro (⟨p, hp⟩ | ⟨hb | ⟨p, -, hp⟩, -⟩)
      · by_cases hP : P p
        · rcases hnew hP hp with hb | ⟨q, -, hq⟩
          · exact .inr hb
          · exact .inl ⟨q, hq⟩
        · exact .inl ⟨p, by rw [← hout p hP, hp]⟩
      · exact .inr hb
      · exact .inl ⟨p, hp⟩
  · obtain ⟨hb, hno⟩ := (hl b).mp hb
    by_cases hP : P p
    · exact hno ⟨p, hP, hp⟩
    · rw [hout p hP] at hp
      rcases hb with hb | ⟨q, hq, hqb⟩
      · exact h.apart hp hb
      · exact hP (h.inj hqb hp ▸ hq)

theorem Owns.attach {p : ι} (hp : ref p = none) (hb : loose b)
    (hnew : ref' p = some b) (hout : ∀ q, q ≠ p → ref' q = ref q)
    (hl : ∀ c, loose' c ↔ loose c ∧ c ≠ b) : Owns ref' used loose' := by
  refine h.rebase (· = p) hout (fun hp hq _ _ => hp.trans hq.symm) ?_ fun c => ?_
  · rintro q c rfl hc
    rw [hnew] at hc
    cases hc
    exact .inl hb
  · rw [hl]
    simp only [exists_eq_left, hp, hnew, reduceCtorEq, or_false, Option.some.injEq, ne_comm, ne_eq]

theorem Owns.detach {p : ι} (hp : ref p = some b)
    (hnew : ref' p = none) (hout : ∀ q, q ≠ p → ref' q = ref q)
    (hl : ∀ c, loose' c ↔ loose c ∨ c = b) : Owns ref' used loose' := by
  refine h.rebase (· = p) hout (fun hp hq _ _ => hp.trans hq.symm) ?_ fun c => ?_
  · rintro q c rfl hc
    rw [hnew] at hc
    cases hc
  · rw [hl, @eq_comm _ c b]
    simp only [exists_eq_left, hp, hnew, reduceCtorEq, not_false_eq_true, and_true, Option.some.injEq]

end

end

end Infra
