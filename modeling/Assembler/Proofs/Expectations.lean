import Mathlib.Data.List.Basic
import Assembler.Code.Expectation

/-!
# Expected opcodes

The check that expected opcodes occur in a code matches each of them with the first opcode that it
can be matched with. No other way of matching gets further (`sublist_iff_of_isPrefix`), so the check
passes iff the expected opcodes are a subsequence of those of the code. If it fails, what it reports
are the opcodes after the longest first part that is one (`Code.expectContains_iff_sublist`).
-/

namespace Assembler

/-- The first part of the expected opcodes, in order and with gaps, is found in the actual ones, and
no longer first part is. -/
structure LongestMatch (actual expected found rest : List Opcode) : Prop where
  split : expected = found ++ rest
  sublist : found.Sublist actual
  longest : ∀ ops, ops <+: expected → ops.Sublist actual → ops <+: found

theorem LongestMatch.unique {actual expected found rest found' rest' : List Opcode}
    (h : LongestMatch actual expected found rest) (h' : LongestMatch actual expected found' rest') :
    found = found' ∧ rest = rest' := by
  have hle : found <+: found' := h'.longest found ⟨rest, h.split.symm⟩ h.sublist
  have hge : found' <+: found := h.longest found' ⟨rest', h'.split.symm⟩ h'.sublist
  have hfound := hle.eq_of_length (Nat.le_antisymm hle.length_le hge.length_le)
  subst hfound
  exact ⟨rfl, List.append_cancel_left (h.split.symm.trans h'.split)⟩

/-! ## The greedy match -/

theorem unmatched_isSuffix (actual expected : List Opcode) :
    unmatched actual expected <:+ expected := by
  fun_induction unmatched actual expected with
  | case1 expected => exact List.suffix_rfl
  | case2 => exact List.suffix_rfl
  | case3 actual e expected ih => exact ih.trans (List.suffix_cons e expected)
  | case4 a actual e expected hne ih => exact ih

theorem length_unmatched_le (actual expected : List Opcode) :
    (unmatched actual expected).length ≤ expected.length :=
  (unmatched_isSuffix actual expected).length_le

/-- A first part of the expected opcodes is a subsequence of the actual ones iff the greedy match
gets as far. -/
theorem sublist_iff_of_isPrefix {actual expected ops : List Opcode} (h : ops <+: expected) :
    ops.Sublist actual ↔ ops.length + (unmatched actual expected).length ≤ expected.length := by
  -- on the actual opcodes, as the match goes
  fun_induction unmatched actual expected generalizing ops with
  | case1 expected =>
    rw [List.sublist_nil, ← List.length_eq_zero_iff]
    omega
  | case2 a actual =>
    obtain rfl := List.prefix_nil.1 h
    simp
  | case3 actual e expected ih =>
    rcases ops with _ | ⟨o, ops⟩
    · have hle := length_unmatched_le actual expected
      simp only [List.nil_sublist, List.length_nil, List.length_cons, true_iff]
      omega
    · obtain ⟨rfl, hops⟩ := List.cons_prefix_cons.1 h
      rw [List.cons_sublist_cons, ih hops, List.length_cons, List.length_cons]
      omega
  | case4 a actual e expected hne ih =>
    rw [← ih h]
    rcases ops with _ | ⟨o, ops⟩
    · simp
    · -- the first opcode is not the one at hand, so it is matched later
      obtain ⟨rfl, hops⟩ := List.cons_prefix_cons.1 h
      refine ⟨fun hsub => ?_, fun hsub => hsub.cons a⟩
      cases hsub with
      | cons _ hsub => exact hsub
      | cons_cons => exact absurd rfl hne

/-- The greedy match finds the longest first part. -/
theorem exists_longestMatch (actual expected : List Opcode) :
    ∃ found, LongestMatch actual expected found (unmatched actual expected) := by
  obtain ⟨found, hsplit⟩ := unmatched_isSuffix actual expected
  have hlength : found.length + (unmatched actual expected).length = expected.length := by
    rw [← List.length_append, hsplit]
  have hfound : found <+: expected := ⟨_, hsplit⟩
  refine ⟨found, hsplit.symm, (sublist_iff_of_isPrefix hfound).2 (Nat.le_of_eq hlength), ?_⟩
  intro ops hops hsub
  have hle := (sublist_iff_of_isPrefix hops).1 hsub
  exact List.prefix_of_prefix_length_le hops hfound (by omega)

theorem unmatched_eq_nil_iff {actual expected : List Opcode} :
    unmatched actual expected = [] ↔ expected.Sublist actual := by
  rw [sublist_iff_of_isPrefix List.prefix_rfl, ← List.length_eq_zero_iff]
  omega

example : unmatched [.copy, .ret, .copy, .branch] [.copy, .copy, .ret] = [.ret] := by decide

/-! ## The check -/

namespace Code

theorem expectContains_eq_ok_iff {c : Code} {expected : List Opcode} :
    c.expectContains expected = .ok () ↔ unmatched c.opcodes expected = [] := by
  unfold expectContains
  cases unmatched c.opcodes expected with
  | nil => simp
  | cons op ops => simp

theorem expectContains_eq_error_iff {c : Code} {expected : List Opcode} {u : Unexpected} :
    c.expectContains expected = .error u ↔
      unmatched c.opcodes expected ≠ [] ∧
        u = .missing (unmatched c.opcodes expected) c.opcodes := by
  unfold expectContains
  cases unmatched c.opcodes expected with
  | nil => simp
  | cons op ops => simp [eq_comm]

/-- The check passes iff the expected opcodes are a subsequence of those of the code. Otherwise it
reports what is left of them after the longest first part that is one. -/
theorem expectContains_iff_sublist (c : Code) (expected : List Opcode) :
    (c.expectContains expected = .ok () ↔ expected.Sublist c.opcodes) ∧
      ∀ u, c.expectContains expected = .error u ↔
        ∃ found rest, LongestMatch c.opcodes expected found rest ∧ rest ≠ [] ∧
          u = .missing rest c.opcodes := by
  refine ⟨expectContains_eq_ok_iff.trans unmatched_eq_nil_iff, fun u => ?_⟩
  obtain ⟨found, hfound⟩ := exists_longestMatch c.opcodes expected
  rw [expectContains_eq_error_iff]
  constructor
  · rintro ⟨hne, rfl⟩
    exact ⟨found, _, hfound, hne, rfl⟩
  · rintro ⟨found', rest, hmatch, hne, rfl⟩
    obtain ⟨-, rfl⟩ := hmatch.unique hfound
    exact ⟨hne, rfl⟩

end Code

end Assembler
