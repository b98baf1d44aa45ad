import Mathlib.Data.List.Forall2
import Assembler.Code.Decode
import Assembler.Proofs.Finishing

/-!
# Decoding lowered code

The walk over lowered code finds one instruction for each instruction of the program that has code,
at its offset and with its opcode, and comes to the end of the words. Each operand word can be read
back: an immediate word is itself, and that of a slot gives the place of the slot
(`Program.decoded_of_lower`).
-/

namespace Assembler

theorem forall₂_of_getElem? {α β : Type} {R : α → β → Prop} {as : List α} {bs : List β}
    (hlength : as.length = bs.length)
    (h : ∀ (m : Nat) a, as[m]? = some a → ∃ b, bs[m]? = some b ∧ R a b) : List.Forall₂ R as bs := by
  refine List.forall₂_iff_get.2 ⟨hlength, fun m ha hb => ?_⟩
  obtain ⟨b, hm, hR⟩ := h m _ (List.getElem?_eq_getElem ha)
  rw [List.getElem?_eq_getElem hb] at hm
  cases hm
  exact hR

/-- `d` is the code of the instruction `x.1`, number `x.2` of the program `is`. Its operand words
stand in a relation to their roles. -/
structure Decoded.IsCodeOf (is : List Instr) (R : Nat → Role → UInt32 → Prop) (x : Instr × Nat)
    (d : Decoded) : Prop where
  offset : d.offset = offsetOf is x.2
  opcode : x.1.opcode? = some d.opcode
  operands : List.Forall₂ (R x.2) x.1.roles d.operands

namespace Code

variable {n : UInt32} {is : List Instr} {i : Instr} {known : Label → UInt32 → Prop} {c : Code}

/-- The instruction at the offset of one that has code. -/
theorem exists_decodeAt? {k : Nat} (h : CodeAt n is known c k) (hsize : c.size = span is)
    (hk : is[k]? = some i) (hi : i.Formed) {op : Opcode} (hop : i.opcode? = some op) :
    ∃ ws, c.decodeAt? (offsetOf is k) = some ⟨offsetOf is k, op, ws⟩ ∧
      List.Forall₂ (Role.Means n is known k) i.roles ws := by
  have hwidth := Instr.width_of_opcode? hop
  have hroom : offsetOf is k + op.width ≤ c.size := by
    rw [hsize, ← hwidth, ← offsetOf_length is]
    exact offsetOf_add_width_le hk (List.getElem?_eq_some_iff.1 hk).1
  have hopcode : c.opcodeAt? (offsetOf is k) = some op := by
    rw [opcodeAt?, h.opcode hk hop]
    exact Opcode.ofWord?_word op
  have hroles := Instr.length_roles hop hi
  have hroom' : offsetOf is k + op.width ≤ c.words.size := hroom
  refine ⟨_, by rw [decodeAt?, hopcode, Option.bind_some, if_pos hroom], ?_⟩
  apply forall₂_of_getElem?
  · have : op.width = 1 + op.operandCount := rfl
    simp only [hroles, Array.length_toList, Array.size_extract]
    omega
  · intro m role hm
    obtain ⟨w, hw, hmeans⟩ := h.operand hk hm
    refine ⟨w, ?_, hmeans⟩
    have hlt := offsetOf_operand_lt is k hi hm
    rw [wordAt?] at hw
    simp only [Array.getElem?_toList, Array.getElem?_extract]
    rw [if_pos, hw]
    omega

/-- The walk from the offset of an instruction on. -/
theorem forall₂_decodedFrom (h : Image n is known c) (hsize : c.size = span is)
    (hformed : ∀ {k : Nat} {i : Instr}, is[k]? = some i → i.Formed) (k : Nat) :
    List.Forall₂ (Decoded.IsCodeOf is (Role.Means n is known))
      (((is.drop k).zipIdx k).filter (·.1.opcode?.isSome)) (c.decodedFrom (offsetOf is k)) := by
  -- on the instructions that are left: one without code leaves the walk where it is
  induction hdrop : is.drop k generalizing k with
  | nil =>
    have hnone : c.decodeAt? (offsetOf is k) = none := by
      rw [Option.eq_none_iff_forall_ne_some]
      intro d hd
      have hlt := lt_size_of_decodeAt? hd
      rw [offsetOf, List.take_of_length_le (List.drop_eq_nil_iff.1 hdrop), hsize] at hlt
      exact Nat.lt_irrefl _ hlt
    rw [decodedFrom_of_none hnone]
    exact .nil
  | cons i rest ih =>
    obtain ⟨hk, hrest⟩ := drop_eq_cons_iff.1 hdrop
    have hnext := ih (k + 1) hrest
    rw [offsetOf_succ hk] at hnext
    rw [List.zipIdx_cons]
    cases hop : i.opcode? with
    | none =>
      rw [List.filter_cons_of_neg (by simp [hop])]
      rwa [Instr.width_eq_zero hop] at hnext
    | some op =>
      obtain ⟨ws, hdecode, hmeans⟩ := exists_decodeAt? (h k) hsize hk (hformed hk) hop
      rw [Instr.width_of_opcode? hop] at hnext
      rw [List.filter_cons_of_pos (by simp [hop]), decodedFrom_of_some hdecode]
      exact .cons ⟨rfl, hop, hmeans⟩ hnext

end Code

/-- The widths of the instructions that have code add up to the span. -/
theorem span_eq_sum_filter (is : List Instr) (k : Nat) :
    span is = (((is.zipIdx k).filter (·.1.opcode?.isSome)).map (·.1.width)).sum := by
  induction is generalizing k with
  | nil => rfl
  | cons i is ih =>
    rw [span_cons, List.zipIdx_cons, ih (k + 1)]
    cases hop : i.opcode? with
    | none =>
      rw [List.filter_cons_of_neg (by simp [hop]), Instr.width_eq_zero hop, Nat.zero_add]
    | some op =>
      rw [List.filter_cons_of_pos (by simp [hop])]
      rfl

namespace Program

variable {p : Program} {n : UInt32} {code : Code}

theorem forall₂_decoded_of_lower (h : (p.lower n).result = .ok code) :
    List.Forall₂ (Decoded.IsCodeOf p.instrs (Role.Means n p.instrs (LabelAddress p.instrs)))
      (p.instrs.zipIdx.filter (·.1.opcode?.isSome)) code.decoded :=
  Code.forall₂_decodedFrom (image_of_lower h) (size_of_lower h) (formed_of_lower h) 0

/-- The code of an instruction is found. -/
theorem exists_decoded_of_lower (h : (p.lower n).result = .ok code) {k : Nat} {i : Instr}
    (hk : p.instrs[k]? = some i) (hop : i.opcode?.isSome) :
    ∃ d ∈ code.decoded,
      d.IsCodeOf p.instrs (Role.Means n p.instrs (LabelAddress p.instrs)) (i, k) := by
  have hmem : (i, k) ∈ p.instrs.zipIdx.filter (·.1.opcode?.isSome) :=
    List.mem_filter.2 ⟨List.mem_zipIdx_iff_getElem?.2 hk, hop⟩
  obtain ⟨m, hm⟩ := List.getElem?_of_mem hmem
  obtain ⟨d, hd, hcode⟩ := exists_getElem?_of_forall₂ (forall₂_decoded_of_lower h) hm
  exact ⟨d, List.mem_of_getElem? hd, hcode⟩

end Program

/-! ## Operands read back -/

/-- `o` is where a slot is stored, for an instruction that finds the frame `f`. -/
def Slot.StoredAt (n : UInt32) (f : Frame) (c : Code) : Slot → Operand → Prop
  | .var (.fixed l), o => o.kind = .frame ∧ o.index = l.index
  | .var (.temp t), o => ∃ r, f.resolve t = .ok r ∧ o.kind = .frame ∧
    o.index.toNat = n.toNat + r.toNat
  | .global index, o => o.kind = .global ∧ o.index = index
  | .cell index, o => o.kind = .cell ∧ o.index = index
  | .free index, o => o.kind = .free ∧ o.index = index
  | .const value, o => o.kind = .const ∧
    ∃ e, c.constant? o.index = some e ∧ e.same value = true

theorem Slot.Word.storedAt {n : UInt32} {f : Frame} {c : Code} {s : Slot} {w : UInt32}
    (h : s.Word n f c.constants w) : ∃ o, Operand.decode? w = some o ∧ s.StoredAt n f c o := by
  obtain ⟨o, hplace, rfl⟩ := h
  refine ⟨o, o.decode?_encode, ?_⟩
  cases s with
  | var v =>
    obtain ⟨index, hindex, hplace⟩ := Option.map_eq_some_iff.1 hplace
    obtain ⟨hkind, rfl⟩ := Prod.mk.inj hplace
    cases v with
    | fixed l =>
      simp only [Var.index?] at hindex
      split at hindex
      · exact ⟨hkind.symm, (UInt32.toNat_inj.1 (Option.some.inj hindex)).symm⟩
      · cases hindex
    | temp t =>
      obtain ⟨r, hr, hsum⟩ := Option.map_eq_some_iff.1 hindex
      exact ⟨r, Frame.resolve_eq_ok_iff.2 hr, hkind.symm, hsum.symm⟩
  | const value =>
    obtain ⟨index, hindex, hplace⟩ := Option.map_eq_some_iff.1 hplace
    obtain ⟨hkind, rfl⟩ := Prod.mk.inj hplace
    exact ⟨hkind.symm, Pool.exists_same_of_indexOf? hindex⟩
  | _ =>
    obtain ⟨hkind, hindex⟩ := Prod.mk.inj (Option.some.inj hplace)
    exact ⟨hkind.symm, (UInt32.toNat_inj.1 hindex).symm⟩

/-- `w` can be read back as the operand for a role of instruction number `k`. Addresses are not
looked at here. -/
def Role.ReadsAs (n : UInt32) (is : List Instr) (c : Code) (k : Nat) : Role → UInt32 → Prop
  | .slot s, w =>
    ∃ o, Operand.decode? w = some o ∧ s.StoredAt n (Frame.after (is.take k)) c o
  | .word v, w => w = v
  | .loopItem, w =>
    ∃ i loc collection item, Matched is i k ∧ is[i]? = some (.forInit loc collection item) ∧
      ∃ o, Operand.decode? w = some o ∧
        (Slot.var item).StoredAt n (Frame.after (is.take k)) c o
  | .target _, _ | .loopEnd, _ | .loopStart, _ => True

theorem Role.Means.readsAs {n : UInt32} {is : List Instr} {known : Label → UInt32 → Prop} {c : Code}
    {k : Nat} {role : Role} {w : UInt32} (hpool : c.constants = poolOf is)
    (h : role.Means n is known k w) : role.ReadsAs n is c k w := by
  cases role with
  | slot s =>
    rw [Means, ← hpool] at h
    exact h.storedAt
  | word v => exact h
  | loopItem =>
    obtain ⟨i, loc, collection, item, hmatched, hi, hw⟩ := h
    rw [← hpool] at hw
    exact ⟨i, loc, collection, item, hmatched, hi, hw.storedAt⟩
  | target | loopEnd | loopStart => trivial

/-- Decoding undoes lowering: the walk over lowered code covers all its words, and finds the
instructions that have code, in order, each at its offset, with its opcode and operands. -/
theorem Program.decoded_of_lower {p : Program} {n : UInt32} {code : Code}
    (h : (p.lower n).result = .ok code) :
    (code.decoded.map (·.opcode.width)).sum = code.size ∧
      List.Forall₂ (Decoded.IsCodeOf p.instrs (Role.ReadsAs n p.instrs code))
        (p.instrs.zipIdx.filter (·.1.opcode?.isSome)) code.decoded := by
  have hwalk := forall₂_decoded_of_lower h
  constructor
  · rw [size_of_lower h, span_eq_sum_filter p.instrs 0]
    congr 1
    rw [eq_comm, ← List.forall₂_eq_eq_eq, List.forall₂_map_left_iff, List.forall₂_map_right_iff]
    exact hwalk.imp fun x d hd => Instr.width_of_opcode? hd.opcode
  · refine hwalk.imp fun x d hd => ⟨hd.offset, hd.opcode, hd.operands.imp fun role w hw => ?_⟩
    exact hw.readsAs (constants_of_lower h)

theorem Program.decoded_of_lower_searchLoop :
    (searchLoop.lower 2).result = .ok searchCode ∧
      (searchCode.decoded.map (·.opcode.width)).sum = searchCode.size ∧
      List.Forall₂
        (Decoded.IsCodeOf searchLoop.instrs (Role.ReadsAs 2 searchLoop.instrs searchCode))
        (searchLoop.instrs.zipIdx.filter (·.1.opcode?.isSome)) searchCode.decoded :=
  ⟨lower_searchLoop, decoded_of_lower lower_searchLoop⟩

end Assembler
