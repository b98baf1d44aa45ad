import Assembler.Proofs.Decoding

/-!
# Positions of words

Every word of lowered code carries the position of the instruction that it is a word of, whether it
is written with the others or patched later (`Program.positions_of_lower`).
-/

namespace Assembler

/-- The positions of the words of a list of instructions. -/
def positions (is : List Instr) : List Position :=
  is.flatMap fun i => List.replicate i.width i.loc

theorem length_positions (is : List Instr) : (positions is).length = span is := by
  simp [positions, span, List.length_flatMap]

/-- Instructions without code add nothing. -/
theorem positions_filter (is : List Instr) :
    positions (is.filter (·.opcode?.isSome)) = positions is := by
  induction is with
  | nil => rfl
  | cons i is ih =>
    unfold positions at ih ⊢
    cases hop : i.opcode? with
    | none =>
      rw [List.filter_cons_of_neg (by simp [hop]), ih, List.flatMap_cons, Instr.width_eq_zero hop]
      rfl
    | some op =>
      rw [List.filter_cons_of_pos (by simp [hop]), List.flatMap_cons, ih, List.flatMap_cons]

/-- All words of an instruction have its position. -/
theorem getElem?_positions {is : List Instr} {k m : Nat} {i : Instr} (hk : is[k]? = some i)
    (hm : m < i.width) : (positions is)[offsetOf is k + m]? = some i.loc := by
  unfold positions
  induction is generalizing k with
  | nil => cases hk
  | cons j is ih =>
    rw [List.flatMap_cons]
    cases k with
    | zero =>
      obtain rfl : j = i := Option.some.inj hk
      rw [offsetOf_zero, Nat.zero_add, List.getElem?_append_left (by simpa using hm),
        List.getElem?_replicate_of_lt hm]
    | succ k =>
      have hlength : (List.replicate j.width j.loc).length = j.width := List.length_replicate
      rw [offsetOf_cons_succ, Nat.add_assoc, List.getElem?_append_right (by omega), hlength,
        Nat.add_sub_cancel_left]
      exact ih hk

namespace Program

variable {p : Program} {n : UInt32} {code : Code}

theorem locAt?_eq_of_lower (h : (p.lower n).result = .ok code) (offset : Nat) :
    code.locAt? offset = (positions p.instrs)[offset]? := by
  rw [Code.locAt?, ← Array.getElem?_toList, locs_of_lower h]
  rfl

/-- Every word of the code of an instruction has its position. -/
theorem locAt?_of_lower (h : (p.lower n).result = .ok code) {k m : Nat} {i : Instr}
    (hk : p.instrs[k]? = some i) (hm : m < i.width) :
    code.locAt? (offsetOf p.instrs k + m) = some i.loc := by
  rw [locAt?_eq_of_lower h]
  exact getElem?_positions hk hm

/-- The walk over lowered code finds the instructions that have code, in order, and the position of
each at all its words. -/
theorem forall₂_positions_of_lower (h : (p.lower n).result = .ok code) :
    List.Forall₂ (fun i d => i.opcode? = some d.opcode ∧
        ∀ m < d.opcode.width, code.locAt? (d.offset + m) = some i.loc)
      (p.instrs.filter (·.opcode?.isSome)) code.decoded := by
  have hfst : (p.instrs.zipIdx.filter (·.1.opcode?.isSome)).map Prod.fst =
      p.instrs.filter (·.opcode?.isSome) := by
    have hmap := List.filter_map (f := Prod.fst) (p := fun i : Instr => i.opcode?.isSome)
      (l := p.instrs.zipIdx)
    rw [List.zipIdx_map_fst] at hmap
    exact hmap.symm
  have hwalk := forall₂_decoded_of_lower h
  rw [← hfst, List.forall₂_map_left_iff]
  refine forall₂_of_getElem? hwalk.length_eq fun j x hx => ?_
  obtain ⟨d, hd, hcode⟩ := exists_getElem?_of_forall₂ hwalk hx
  have hk := List.mem_zipIdx_iff_getElem?.1 (List.mem_filter.1 (List.mem_of_getElem? hx)).1
  refine ⟨d, hd, hcode.opcode, fun m hm => ?_⟩
  rw [hcode.offset]
  exact locAt?_of_lower h hk (by rwa [Instr.width_of_opcode? hcode.opcode])

/-- The address of a loop's end stands in the last word of its opening. -/
theorem exit_of_lower (h : (p.lower n).result = .ok code) {a b : Nat} {loc : Position}
    {collection : Slot} {item : Var} (hmatched : Matched p.instrs a b)
    (ha : p.instrs[a]? = some (.forInit loc collection item)) :
    code.wordAt? (offsetOf p.instrs a + 3) = some (offsetOf p.instrs (b + 1)).toUInt32 := by
  have hrole : (Instr.forInit loc collection item).roles[2]? = some .loopEnd := rfl
  obtain ⟨w, hw, hmeans⟩ := (image_of_lower h a).operand ha hrole
  rw [← hmeans b hmatched]
  exact hw

/-- Every word of lowered code carries the position of its own instruction: the positions are those
of the instructions that have code, in order, each as often as it has words. So there are as many
positions as words. The words of a loop's opening have the position of the opening, also the one
that is patched where the loop is closed, and those of its closing that of the closing. -/
theorem positions_of_lower (h : (p.lower n).result = .ok code) :
    code.locs.toList =
        (p.instrs.filter (·.opcode?.isSome)).flatMap (fun i => List.replicate i.width i.loc) ∧
      code.locs.size = code.words.size ∧
      (∀ offset, (∃ loc, code.locAt? offset = some loc) ↔ offset < code.size) ∧
      List.Forall₂ (fun i d => i.opcode? = some d.opcode ∧
          ∀ m < d.opcode.width, code.locAt? (d.offset + m) = some i.loc)
        (p.instrs.filter (·.opcode?.isSome)) code.decoded ∧
      ∀ a b loc loc' collection item, Matched p.instrs a b →
        p.instrs[a]? = some (.forInit loc collection item) →
        p.instrs[b]? = some (.forClose loc') →
        code.wordAt? (offsetOf p.instrs a + 3) = some (offsetOf p.instrs (b + 1)).toUInt32 ∧
          (∀ m < 4, code.locAt? (offsetOf p.instrs a + m) = some loc) ∧
          ∀ m < 3, code.locAt? (offsetOf p.instrs b + m) = some loc' := by
  have hlength : code.locs.toList.length = code.size := by
    rw [locs_of_lower h, size_of_lower h]
    exact length_positions p.instrs
  refine ⟨?_, hlength, fun offset => ?_, forall₂_positions_of_lower h, ?_⟩
  · rw [locs_of_lower h]
    exact (positions_filter p.instrs).symm
  · rw [Code.locAt?, ← Array.getElem?_toList, ← hlength]
    simp only [List.getElem?_eq_some_iff]
    constructor
    · rintro ⟨loc, hlt, -⟩
      exact hlt
    · intro hlt
      exact ⟨_, hlt, rfl⟩
  · intro a b loc loc' collection item hmatched ha hb
    exact ⟨exit_of_lower h hmatched ha, fun m hm => locAt?_of_lower h ha hm,
      fun m hm => locAt?_of_lower h hb hm⟩

end Program

/-- A loop with its opening, its body and its closing on lines of their own. -/
def spreadLoop : Program :=
  let item : Temp := ⟨0, "item"⟩
  ⟨[.alloc item,
    .forInit ⟨1, 1⟩ (.global 0) (.temp item),
    .copy ⟨2, 5⟩ (.var (.temp item)) (.fixed ⟨0⟩),
    .forClose ⟨3, 1⟩,
    .release item,
    .ret ⟨4, 1⟩ (.var (.fixed ⟨0⟩))]⟩

/-- Its code, if it has one fixed local. -/
def spreadCode : Code where
  words := #[4, 0x20000000, 1, 10, 0, 1, 0, 5, 1, 4, 6, 0]
  locs :=
    #[⟨1, 1⟩, ⟨1, 1⟩, ⟨1, 1⟩, ⟨1, 1⟩, ⟨2, 5⟩, ⟨2, 5⟩, ⟨2, 5⟩, ⟨3, 1⟩, ⟨3, 1⟩, ⟨3, 1⟩, ⟨4, 1⟩,
      ⟨4, 1⟩]
  frameSize := 2

theorem lower_spreadLoop : (spreadLoop.lower 1).result = .ok spreadCode := by
  decide

namespace Program

theorem positions_of_lower_spreadLoop :
    (spreadLoop.lower 1).result = .ok spreadCode ∧ Matched spreadLoop.instrs 1 3 ∧
      spreadCode.locs.size = spreadCode.words.size ∧ spreadCode.wordAt? 3 = some 10 ∧
      (∀ m < 4, spreadCode.locAt? m = some ⟨1, 1⟩) ∧
      ∀ m < 3, spreadCode.locAt? (7 + m) = some ⟨3, 1⟩ := by
  have hmatched : Matched spreadLoop.instrs 1 3 :=
    ⟨by decide, ⟨_, _, _, rfl⟩, ⟨_, rfl⟩, .cons rfl .nil⟩
  obtain ⟨-, hsize, -, -, hloops⟩ := positions_of_lower lower_spreadLoop
  obtain ⟨hexit, hopening, hclosing⟩ := hloops 1 3 _ _ _ _ hmatched rfl rfl
  refine ⟨lower_spreadLoop, hmatched, hsize, hexit, fun m hm => ?_, hclosing⟩
  have hloc := hopening m hm
  rwa [show offsetOf spreadLoop.instrs 1 = 0 from rfl, Nat.zero_add] at hloc

end Program

end Assembler
