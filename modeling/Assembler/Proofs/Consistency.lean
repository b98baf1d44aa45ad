import Assembler.Proofs.Endings

/-!
# Consistency of the pass

The pass checks its own work: that an instruction has the width of its opcode, that the words add up
to the instructions written, and that the frame covers every index in use. It also replaces words
and retires cells, which have to be there. Between two instructions the pass is `Consistent`
(`Pass.Reaches.consistent`), so the checks pass and the words and cells are there
(`Program.internal_checks_pass`).
-/

namespace Assembler

/-- The fault is one of the pass itself, which no program can cause. -/
def Fault.isInternal : Fault → Bool
  | widthMismatch .. | streamLengthMismatch .. | frameSizeMismatch .. => true
  | _ => false

theorem Fault.isInternal_of_ofInstruction {fault : Fault} (h : fault.ofInstruction) :
    fault.isInternal = false := by
  cases fault <;> first | rfl | cases h

theorem Ending.isInternal_fault {n : UInt32} {p : Program} {e : Failure}
    (h : Ending n p (.error e)) : e.fault.isInternal = false := by
  cases h <;> rfl

/-- The words of a loop's opening have been written as long as it is open. -/
theorem offset_add_four_le_of_mem_openLoops {is : List Instr} {e : Opened}
    (h : e ∈ openLoops is) : e.offset + 4 ≤ span is := by
  induction is using List.reverseRecOn with
  | nil => cases h
  | append_singleton is i ih =>
    have hle : span is ≤ span (is ++ [i]) := by
      rw [span_append]
      exact Nat.le_add_right _ _
    rw [openLoops_append_singleton] at h
    cases i with
    | forInit loc collection item =>
      rcases List.mem_cons.1 h with rfl | h
      · rw [span_append]
        exact Nat.le_refl (span is + 4)
      · exact Nat.le_trans (ih h) hle
    | forClose loc => exact Nat.le_trans (ih (List.mem_of_mem_tail h)) hle
    | _ => exact Nat.le_trans (ih h) hle

namespace Pass

variable {n : UInt32} {is : List Instr} {p q : Pass}

/-- What holds between two instructions: none is being written, every word is accounted for and has
a position, the words that wait for an address have been written, the cell of a live temporary is on
the stack, and the frame covers every index in use. -/
structure Consistent (p : Pass) : Prop where
  current : p.current = none
  accounted : p.accounted = p.code.size
  locs : p.code.locs.size = p.code.size
  fixups : ∀ f ∈ p.jumps.fixups, f.offset < p.code.size
  exits : ∀ l ∈ p.jumps.loops, l.exit < p.code.size
  cells : ∀ t r, p.frame.binding? t = some (.live r) → r.toNat < p.frame.cells.length
  maxLocal : ∀ index, p.maxLocal = some index →
    index.toNat < p.fixedLocals.toNat + p.frame.highWater.toNat

theorem Reaches.consistent (h : Reaches n is p) (hwraps : Frame.NeverWraps is) :
    p.Consistent := by
  have hledger := h.ledger
  refine ⟨hledger.current, hledger.accounted.trans hledger.size.symm, ?_, fun f hf => ?_,
    fun l hl => ?_, fun t r ht => ?_, fun index hindex => ?_⟩
  · rw [← Array.length_toList, hledger.locs, hledger.size, List.length_flatMap]
    simp only [List.length_replicate]
    rfl
  · obtain ⟨k, i, m, label, hk, hm, rfl⟩ := hledger.mem_fixups.1 hf
    have hlt := offsetOf_operand_lt is k (h.formed hk) hm
    rw [← offsetOf_succ hk] at hlt
    rw [hledger.size]
    exact Nat.lt_of_lt_of_le hlt (offsetOf_le_span is (k + 1))
  · rw [hledger.loops] at hl
    obtain ⟨e, he, rfl⟩ := List.mem_map.1 hl
    rw [hledger.size]
    exact offset_add_four_le_of_mem_openLoops he
  · rw [hledger.frame] at ht ⊢
    exact (Frame.coherent_after hwraps).lt_length ht
  · rw [hledger.fixedLocals, hledger.frame]
    exact h.maxLocal_lt hwraps hindex

/-- The words to be patched at the end have been written. -/
theorem Consistent.lt_size_of_resolve (h : p.Consistent) {patches : List (Nat × UInt32)}
    (hres : p.jumps.resolve = .ok patches) {patch : Nat × UInt32} (hmem : patch ∈ patches) :
    patch.1 < p.code.size := by
  obtain ⟨j, hj⟩ := List.getElem?_of_mem hmem
  have hforall := (resolve_eq_ok_iff.1 hres).flip
  obtain ⟨f, hf, -, hoffset⟩ := exists_getElem?_of_forall₂ hforall hj
  rw [hoffset]
  exact h.fixups f (List.mem_of_getElem? hf)

theorem size_of_emit (hfits : p.code.constants.Fits) {k : Nat} {loc : Position} {op : Opcode}
    {ds : List Field} (h : p.emit k loc op ds = .ok q) :
    q.code.size = p.code.size + 1 + ds.length := by
  obtain ⟨-, r, hr, rfl⟩ := (emit_eq_ok_iff hfits).1 h
  have hpush : (p.start loc op).offset = p.code.size + 1 := Code.size_push _ _ _
  rw [← hpush]
  exact (wrote_of_foldlM (p := p.start loc op) hfits hr).offset

/-- The word to be patched where a loop is closed has been written. -/
theorem Consistent.exit_lt_of_leave (h : p.Consistent) (hfits : p.code.constants.Fits) {k : Nat}
    {loc : Position} {jumps : Jumps} {l : Loop} {op : Opcode} {ds : List Field}
    (hleave : p.jumps.leave = .ok (jumps, l))
    (hemit : { p with jumps }.emit k loc op ds = .ok q) : l.exit < q.code.size := by
  have hmem : l ∈ p.jumps.loops := by
    unfold Jumps.leave at hleave
    split at hleave
    · cases hleave
    next hloops =>
      cases hleave
      rw [hloops]
      exact List.mem_cons_self
  have hexit := h.exits l hmem
  have hsize := size_of_emit (p := { p with jumps }) hfits hemit
  simp only at hsize
  omega

end Pass

namespace Program

/-- Neither an instruction nor the end of the pass has a fault of the pass itself. -/
theorem isInternal_of_lower {p : Program} {n : UInt32}
    (hallocs : allocations p.instrs < UInt32.size) {e : Failure}
    (h : (p.lower n).result = .error e) : e.fault.isInternal = false := by
  cases hrun : (Pass.run { fixedLocals := n } 0 p.instrs).2 with
  | error x =>
    have hfails : p.FailsAt n x.1 x.2 := failsAt_iff_run.2 hrun
    cases hfails.lower_eq.symm.trans h
    exact Fault.isInternal_of_ofInstruction hfails.ofInstruction
  | ok pass =>
    have hending := (Pass.reaches_iff_run.2 hrun).ending (Frame.neverWraps_of_allocations hallocs)
    rw [h] at hending
    exact hending.isInternal_fault

/-- No result is a fault of the pass itself, and at every instruction the pass is consistent: a cell
that is released is on the stack, and the words that are patched, where a loop is closed and at the
end, have been written. -/
theorem internal_checks_pass (p : Program) (n : UInt32)
    (hallocs : allocations p.instrs < UInt32.size) :
    (∀ e, (p.lower n).result = .error e → e.fault.isInternal = false) ∧
    ∀ k pass, (Pass.run { fixedLocals := n } 0 (p.instrs.take k)).2 = .ok pass →
      pass.Consistent ∧
      (∀ t frame r, pass.frame.release t = (.ok r, frame) → r.toNat < pass.frame.cells.length) ∧
      (∀ loc jumps l q, pass.jumps.leave = .ok (jumps, l) →
        { pass with jumps }.emit k loc .forNext [.slot (.var l.item), .located loc l.body] = .ok q →
        l.exit < q.code.size) ∧
      (∀ patches, pass.jumps.resolve = .ok patches →
        ∀ patch ∈ patches, patch.1 < pass.code.size) := by
  have hwraps := Frame.neverWraps_of_allocations hallocs
  refine ⟨fun e he => isInternal_of_lower hallocs he, fun k pass hrun => ?_⟩
  have hreaches := Pass.reaches_iff_run.2 hrun
  have hpass := hreaches.consistent (hwraps.of_isPrefix (List.take_prefix k p.instrs))
  refine ⟨hpass, fun t frame r hrelease => ?_, fun loc jumps l q hleave hemit => ?_,
    fun patches hres patch hmem => hpass.lt_size_of_resolve hres hmem⟩
  · exact hpass.cells t r (Frame.release_eq_ok_iff.1 hrelease).1
  · exact hpass.exit_lt_of_leave hreaches.ledger.fits hleave hemit

/-- In the middle of the two loops of `searchLoop`, with a branch that waits. -/
theorem internal_checks_searchLoop :
    allocations searchLoop.instrs < UInt32.size ∧
      ∃ pass, (Pass.run { fixedLocals := 2 } 0 (searchLoop.instrs.take 7)).2 = .ok pass ∧
        pass.jumps.loops.length = 2 ∧ pass.jumps.fixups.length = 1 ∧ pass.Consistent := by
  have hallocs : allocations searchLoop.instrs < UInt32.size := by decide
  have hok : ((Pass.run { fixedLocals := 2 } 0 (searchLoop.instrs.take 7)).2.toOption.map
      fun pass => (pass.jumps.loops.length, pass.jumps.fixups.length)) = some (2, 1) := by
    decide
  cases hrun : (Pass.run { fixedLocals := 2 } 0 (searchLoop.instrs.take 7)).2 with
  | error e =>
    rw [hrun] at hok
    cases hok
  | ok pass =>
    rw [hrun] at hok
    have hlengths := Option.some.inj hok
    exact ⟨hallocs, pass, rfl, congrArg Prod.fst hlengths, congrArg Prod.snd hlengths,
      ((internal_checks_pass searchLoop 2 hallocs).2 7 pass hrun).1⟩

end Program

end Assembler
