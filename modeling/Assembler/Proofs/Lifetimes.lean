import Mathlib.Data.List.Induction
import Assembler.Proofs.Frames
import Assembler.Proofs.Layout

/-!
# Lifetimes of temporaries

Whether a temporary is live at an instruction can be told from the numbers of its allocation and
release: it holds a cell from its allocation on, up to its first release after that
(`Frame.exists_cell?_iff`).
-/

namespace Assembler

/-- Instruction number `k` of `is` has the property `P`. -/
def At (is : List Instr) (k : Nat) (P : Instr → Prop) : Prop :=
  ∃ i, is[k]? = some i ∧ P i

section At

variable {is : List Instr} {i : Instr} {k l : Nat} {P Q : Instr → Prop}

theorem At.imp (h : At is k P) (hPQ : ∀ {i}, P i → Q i) : At is k Q := by
  obtain ⟨i, hk, hi⟩ := h
  exact ⟨i, hk, hPQ hi⟩

theorem At.exists_and (h : At is k P) (h' : At is k Q) : ∃ i, P i ∧ Q i := by
  obtain ⟨i, hk, hi⟩ := h
  obtain ⟨j, hk', hj⟩ := h'
  rw [hk] at hk'
  cases hk'
  exact ⟨i, hi, hj⟩

theorem At.lt_length (h : At is k P) : k < is.length := by
  obtain ⟨i, hk, -⟩ := h
  exact (List.getElem?_eq_some_iff.1 hk).1

theorem at_append_singleton : At (is ++ [i]) k P ↔ At is k P ∨ k = is.length ∧ P i := by
  constructor
  · rintro ⟨j, hk, hj⟩
    rcases getElem?_append_singleton_cases hk with ⟨-, hk⟩ | ⟨hlast, rfl⟩
    · exact Or.inl ⟨j, hk, hj⟩
    · exact Or.inr ⟨hlast, hj⟩
  · rintro (⟨j, hk, hj⟩ | ⟨rfl, hi⟩)
    · exact ⟨j, by rwa [List.getElem?_append_left (List.getElem?_eq_some_iff.1 hk).1], hj⟩
    · exact ⟨i, by simp, hi⟩

theorem at_take : At (is.take k) l P ↔ l < k ∧ At is l P := by
  constructor
  · rintro ⟨i, hl, hi⟩
    rw [List.getElem?_take] at hl
    split at hl
    next hlt => exact ⟨hlt, i, hl, hi⟩
    · cases hl
  · rintro ⟨hlt, i, hl, hi⟩
    exact ⟨i, by rwa [List.getElem?_take_of_lt hlt], hi⟩

end At

namespace Frame

theorem binding?_follow_eq_none_iff {f : Frame} {i : Instr} {t : Temp} :
    (f.follow i).binding? t = none ↔ f.binding? t = none ∧ ¬ i.Allocs t := by
  rcases f.follow_cases i with ⟨heq, hbound, -⟩ | ⟨u, rfl, hu, heq⟩ | ⟨u, r, rfl, hu, heq⟩
  · rw [heq]
    exact ⟨fun h => ⟨h, fun hi => hbound t hi h⟩, And.left⟩
  · rw [heq, binding?_allocated]
    by_cases hid : t.id = u.id
    · simp [hid, Instr.Allocs]
    · simp [hid, Instr.Allocs, Ne.symm hid]
  · rw [heq, binding?_released _ _ _ hu]
    by_cases hid : t.id = u.id
    · simp [hid, f.binding?_congr hid, hu]
    · simp [hid, Instr.Allocs]

theorem binding?_follow_eq_released_iff {f : Frame} {i : Instr} {t : Temp} :
    (f.follow i).binding? t = some .released ↔
      f.binding? t = some .released ∨ f.binding? t ≠ none ∧ i.Releases t := by
  rcases f.follow_cases i with ⟨heq, -, hlive⟩ | ⟨u, rfl, hu, heq⟩ | ⟨u, r, rfl, hu, heq⟩
  · rw [heq]
    refine ⟨Or.inl, ?_⟩
    rintro (h | ⟨hbound, hi⟩)
    · exact h
    · cases hbinding : f.binding? t with
      | none => exact absurd hbinding hbound
      | some b =>
        cases b with
        | live r => exact absurd hbinding (hlive t r hi)
        | released => rfl
  · rw [heq, binding?_allocated]
    by_cases hid : t.id = u.id
    · simp [hid, f.binding?_congr hid, hu]
    · simp [hid, Instr.Releases]
  · rw [heq, binding?_released _ _ _ hu]
    by_cases hid : t.id = u.id
    · simp [hid, f.binding?_congr hid, hu, Instr.Releases]
    · simp [hid, Instr.Releases, Ne.symm hid]

/-- A temporary is unbound as long as it has not been allocated. -/
theorem binding?_after_eq_none_iff {is : List Instr} {t : Temp} :
    (after is).binding? t = none ↔ ∀ a, ¬ At is a (Instr.Allocs t) := by
  induction is using List.reverseRecOn with
  | nil => exact ⟨fun _ _ h => absurd h.lt_length (Nat.not_lt_zero _), fun _ => rfl⟩
  | append_singleton is i ih =>
    rw [after_append_singleton, binding?_follow_eq_none_iff, ih]
    simp only [at_append_singleton, not_or, not_and]
    constructor
    · rintro ⟨h, hi⟩ a
      exact ⟨h a, fun _ => hi⟩
    · intro h
      exact ⟨fun a => (h a).1, (h is.length).2 rfl⟩

/-- A temporary is released as soon as a release comes after an allocation. -/
theorem binding?_after_eq_released_iff {is : List Instr} {t : Temp} :
    (after is).binding? t = some .released ↔
      ∃ a r, a < r ∧ At is a (Instr.Allocs t) ∧ At is r (Instr.Releases t) := by
  induction is using List.reverseRecOn with
  | nil =>
    refine ⟨nofun, ?_⟩
    rintro ⟨a, r, -, ha, -⟩
    exact absurd ha.lt_length (Nat.not_lt_zero _)
  | append_singleton is i ih =>
    rw [after_append_singleton, binding?_follow_eq_released_iff, ih, ne_eq,
      binding?_after_eq_none_iff]
    simp only [at_append_singleton, not_forall, not_not]
    constructor
    · rintro (⟨a, r, hlt, ha, hr⟩ | ⟨⟨a, ha⟩, hi⟩)
      · exact ⟨a, r, hlt, Or.inl ha, Or.inl hr⟩
      · exact ⟨a, is.length, ha.lt_length, Or.inl ha, Or.inr ⟨rfl, hi⟩⟩
    · rintro ⟨a, r, hlt, ha | ⟨rfl, ha⟩, hr | ⟨rfl, hr⟩⟩
      · exact Or.inl ⟨a, r, hlt, ha, hr⟩
      · exact Or.inr ⟨⟨a, ha⟩, hr⟩
      · exact absurd hr.lt_length (Nat.not_lt_of_lt hlt)
      · exact absurd hlt (Nat.lt_irrefl _)

/-- A temporary is live at an instruction iff it has been allocated before, and not been released
since. -/
theorem exists_cell?_iff {is : List Instr} {k : Nat} {t : Temp} :
    (∃ r, (after (is.take k)).cell? t = some r) ↔
      (∃ a, a < k ∧ At is a (Instr.Allocs t)) ∧
        ∀ a r, a < r → At is a (Instr.Allocs t) → At is r (Instr.Releases t) → k ≤ r := by
  have hnone := @binding?_after_eq_none_iff (is.take k) t
  have hreleased := @binding?_after_eq_released_iff (is.take k) t
  simp only [at_take] at hnone hreleased
  constructor
  · rintro ⟨r, hr⟩
    rw [cell?_eq_some_iff] at hr
    rw [hr] at hnone hreleased
    constructor
    · by_contra h
      cases hnone.2 fun a ha => h ⟨a, ha⟩
    · intro a r hlt ha hr
      by_contra h
      have hr' := Nat.lt_of_not_le h
      cases hreleased.2 ⟨a, r, hlt, ⟨Nat.lt_trans hlt hr', ha⟩, hr', hr⟩
  · rintro ⟨⟨a, hlt, ha⟩, hlive⟩
    cases hbinding : (after (is.take k)).binding? t with
    | none => exact absurd ⟨hlt, ha⟩ (hnone.1 hbinding a)
    | some b =>
      cases b with
      | live r => exact ⟨r, cell?_eq_some_iff.2 hbinding⟩
      | released =>
        obtain ⟨a, r, hlt, ⟨-, ha⟩, hr', hr⟩ := hreleased.1 hbinding
        exact absurd (hlive a r hlt ha hr) (Nat.not_le_of_lt hr')

end Frame

end Assembler
