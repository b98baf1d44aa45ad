import Mathlib.Data.Set.Function
import Assembler.Proofs.Writing

/-!
# Operand words and storage places

A word names a storage place iff its tag is that of a kind, which is so below `5 * 2 ^ 28`
(`Operand.exists_decode?_iff`). No two places share a word, so writing is a bijection between the
places whose index has room and the words that name a place (`Operand.words_one_to_one`).
-/

namespace Assembler

theorem Kind.isSome_ofTag?_iff {t : UInt32} : (ofTag? t).isSome ↔ t.toNat < 5 := by
  rw [ofTag?, isSome_getElem?]
  exact Iff.rfl

/-! ## Indices -/

theorem le_maxIndex_iff {index : UInt32} : index ≤ maxIndex ↔ index.toNat ≤ 2 ^ 28 - 1 :=
  UInt32.le_iff_toNat_le

theorem operand_kind_index (o : Operand) : operand o.kind o.index = .ok o :=
  operand_eq_ok_iff.2 ⟨rfl, rfl⟩

theorem exists_operand_eq_ok_iff {kind : Kind} {index : UInt32} :
    (∃ o, operand kind index = .ok o) ↔ index.toNat ≤ 2 ^ 28 - 1 := by
  constructor
  · rintro ⟨o, ho⟩
    obtain ⟨-, rfl⟩ := operand_eq_ok_iff.1 ho
    exact le_maxIndex_iff.1 o.index_le
  · intro hle
    exact ⟨_, operand_kind_index ⟨kind, index, le_maxIndex_iff.2 hle⟩⟩

/-- An index without room is the only reason to refuse a place, and it is reported. -/
theorem operand_eq_error_iff {kind : Kind} {index : UInt32} {f : Fault} :
    operand kind index = .error f ↔ 2 ^ 28 ≤ index.toNat ∧ f = .operandOverflow index := by
  unfold operand Operand.ofIndex?
  by_cases h : index ≤ maxIndex
  · have hroom := le_maxIndex_iff.1 h
    simp only [h, dite_true, reduceCtorEq, false_iff]
    omega
  · have hroom : 2 ^ 28 ≤ index.toNat := by
      rw [le_maxIndex_iff] at h
      omega
    simp only [h, dite_false, Except.error.injEq, hroom, true_and]
    exact eq_comm

/-! ## Words -/

namespace Operand

/-- The tags of the kinds come first, so the words that name a place are those below the first
word of the next tag. -/
theorem exists_decode?_iff {w : UInt32} : (∃ o, decode? w = some o) ↔ w.toNat < 5 * 2 ^ 28 := by
  rw [← Option.isSome_iff_exists, decode?, Option.isSome_map, Kind.isSome_ofTag?_iff,
    toNat_shiftRight_tag]
  omega

theorem bijOn_encode :
    Set.BijOn encode {o | ∃ kind index, operand kind index = .ok o}
      {w | w.toNat < 5 * 2 ^ 28} := by
  refine ⟨fun o _ => ?_, encode_injective.injOn, fun w hw => ?_⟩
  · exact exists_decode?_iff.1 ⟨o, o.decode?_encode⟩
  · obtain ⟨o, ho⟩ := exists_decode?_iff.2 hw
    exact ⟨o, ⟨o.kind, o.index, operand_kind_index o⟩, encode_of_decode? ho⟩

/-- Storage places and operand words correspond one to one. A place is made iff its index has
room, and is read back from its word; a word names a place iff it is below `5 * 2 ^ 28`, and is the
word of that place. -/
theorem words_one_to_one :
    (∀ (kind : Kind) (index : UInt32),
      ((∃ o, operand kind index = .ok o) ↔ index.toNat ≤ 2 ^ 28 - 1) ∧
      (∀ f, operand kind index = .error f ↔
        2 ^ 28 ≤ index.toNat ∧ f = .operandOverflow index) ∧
      ∀ o, operand kind index = .ok o →
        o.kind = kind ∧ o.index = index ∧ decode? o.encode = some o ∧
          o.encode.toNat = kind.tag.toNat * 2 ^ 28 + index.toNat) ∧
    (∀ w : UInt32,
      ((∃ o, decode? w = some o) ↔ w.toNat < 5 * 2 ^ 28) ∧
      ∀ o, decode? w = some o → operand o.kind o.index = .ok o ∧ o.encode = w) ∧
    Set.BijOn encode {o | ∃ kind index, operand kind index = .ok o}
      {w | w.toNat < 5 * 2 ^ 28} := by
  refine ⟨fun kind index => ⟨exists_operand_eq_ok_iff, fun _ => operand_eq_error_iff, ?_⟩,
    fun w => ⟨exists_decode?_iff, ?_⟩, bijOn_encode⟩
  · intro o ho
    obtain ⟨rfl, rfl⟩ := operand_eq_ok_iff.1 ho
    exact ⟨rfl, rfl, o.decode?_encode, o.encode_toNat⟩
  · intro o ho
    exact ⟨operand_kind_index o, encode_of_decode? ho⟩

/-- The last place has the last word: the next index is refused, and the next word is not read. -/
theorem words_one_to_one_lastPlace :
    (∃ o, operand .free 0x0fffffff = .ok o ∧ o.encode = 0x4fffffff ∧
      decode? 0x4fffffff = some o) ∧
    operand .free 0x10000000 = .error (.operandOverflow 0x10000000) ∧
    ¬∃ o, decode? 0x50000000 = some o := by
  obtain ⟨hplaces, hwords, -⟩ := words_one_to_one
  obtain ⟨o, ho⟩ := (hplaces .free 0x0fffffff).1.2 (by decide)
  obtain ⟨-, -, hread, hword⟩ := (hplaces .free 0x0fffffff).2.2 o ho
  have hlast : o.encode = 0x4fffffff := UInt32.toNat_inj.1 hword
  refine ⟨⟨o, ho, hlast, hlast ▸ hread⟩, ?_, ?_⟩
  · exact ((hplaces .free 0x10000000).2.1 _).2 ⟨by decide, rfl⟩
  · rw [(hwords 0x50000000).1]
    decide

end Operand

end Assembler
