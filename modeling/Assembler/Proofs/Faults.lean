import Assembler.Proofs.Passes

/-!
# Faults of instructions

A step of the pass fails because of what its instruction names, and each kind of instruction has
its own ways to fail (`Pass.Faulted`). The words that it writes always have the width of their
opcode, and labels that are never placed and loops that are never closed show at the end only.

The first instruction that cannot be written is the fault of the program (`Program.FailsAt`). It is
the same one whatever comes after it (`Program.failsAt_append_iff`).
-/

namespace Assembler

/-! ## Ways to fail -/

/-- If the computation fails, its fault has the property `P`. -/
def FailsOnly {α : Type} (P : Fault → Prop) (x : Except Fault α) : Prop :=
  ∀ fault, x = .error fault → P fault

namespace FailsOnly

variable {α β : Type} {P : Fault → Prop}

theorem ok (a : α) : FailsOnly P (.ok a) :=
  fun _ h => by cases h

theorem error {fault : Fault} (h : P fault) : FailsOnly P (.error fault : Except _ α) :=
  fun _ h' => by
    cases h'
    exact h

theorem bind {x : Except Fault α} {f : α → Except Fault β} (hx : FailsOnly P x)
    (hf : ∀ a, x = .ok a → FailsOnly P (f a)) : FailsOnly P (x >>= f) := by
  cases x with
  | error fault => exact error (hx fault rfl)
  | ok a => exact hf a rfl

theorem bind_pure {x : Except Fault α} (hx : FailsOnly P x) (f : α → β) :
    FailsOnly P (x >>= fun a => pure (f a)) :=
  hx.bind fun a _ => ok (f a)

end FailsOnly

/-- The fault is that of an instruction that cannot be written. The others show at the end of the
pass, if at all. -/
def Fault.ofInstruction : Fault → Bool
  | unresolvedJump .. | unclosedLoop _ => false
  | widthMismatch .. | frameSizeMismatch .. | streamLengthMismatch .. => false
  | _ => true

/-- The fault is that of an instruction that has code. -/
def Fault.ofWriting : Fault → Bool
  | unresolvedSlot _ | slotReleased _ | localOutOfFrame .. | operandOverflow _ => true
  | backwardJump _ | unbalancedLoopClose | operandCountMismatch .. | reservedOpcode _ => true
  | _ => false

theorem Fault.ofInstruction_of_ofWriting {fault : Fault} (h : fault.ofWriting) :
    fault.ofInstruction := by
  cases fault <;> first | rfl | cases h

/-! ## Steps -/

theorem failsOnly_operand (kind : Kind) (index : UInt32) :
    FailsOnly (·.ofWriting) (operand kind index) := by
  unfold operand
  split
  · exact .ok _
  · exact .error rfl

theorem Frame.failsOnly_resolve (f : Frame) (t : Temp) :
    FailsOnly (·.ofWriting) (f.resolve t) := by
  unfold resolve
  split
  · exact .ok _
  · exact .error rfl
  · exact .error rfl

namespace Pass

variable {p : Pass}

theorem failsOnly_frameIndex (p : Pass) (v : Var) :
    FailsOnly (·.ofWriting) (p.frameIndex v) := by
  cases v with
  | fixed l =>
    rw [frameIndex]
    split
    · exact .ok _
    · exact .error rfl
  | temp t =>
    refine (p.frame.failsOnly_resolve t).bind fun cell _ => ?_
    split
    · exact .ok _
    · exact .error rfl

theorem failsOnly_writeField (k : Nat) (p : Pass) (d : Field) :
    FailsOnly (·.ofWriting) (p.writeField k d) := by
  cases d with
  | slot s =>
    cases s with
    | var v =>
      exact (p.failsOnly_frameIndex v).bind fun index _ => (failsOnly_operand _ _).bind_pure _
    | global index | cell index | free index | const c => exact (failsOnly_operand _ _).bind_pure _
  | word w | located loc w => exact .ok _
  | jump label =>
    refine FailsOnly.bind_pure ?_ _
    unfold Jumps.await
    split
    · exact .error rfl
    · exact .ok _

theorem failsOnly_foldlM (k : Nat) (p : Pass) (ds : List Field) :
    FailsOnly (·.ofWriting) (ds.foldlM (writeField k) p) := by
  induction ds generalizing p with
  | nil => exact .ok p
  | cons d ds ih =>
    rw [List.foldlM_cons]
    exact (p.failsOnly_writeField k d).bind fun q _ => ih q

/-- The words of an instruction have the width of its opcode, so only its fields can fail. -/
theorem failsOnly_emit_of_fields {P : Fault → Prop} (hfits : p.code.constants.Fits) {k : Nat}
    {loc : Position} {op : Opcode} {ds : List Field} (harity : ds.length = op.operandCount)
    (h : FailsOnly P (ds.foldlM (writeField k) (p.start loc op))) :
    FailsOnly P (p.emit k loc op ds) := by
  refine h.bind fun q hq => ?_
  have hemit := (emit_eq_ok_iff hfits).2 ⟨harity, q, hq, rfl⟩
  rw [emit, hq] at hemit
  intro fault hfault
  cases hemit.symm.trans hfault

theorem failsOnly_emit (hfits : p.code.constants.Fits) (k : Nat) (loc : Position) {op : Opcode}
    {ds : List Field} (harity : ds.length = op.operandCount) :
    FailsOnly (·.ofWriting) (p.emit k loc op ds) :=
  failsOnly_emit_of_fields hfits harity (failsOnly_foldlM k (p.start loc op) ds)

/-- The ways in which the step of an instruction can fail. -/
inductive Faulted (p : Pass) : Instr → Fault → Prop where
  | bound {t : Temp} (h : p.frame.binding? t ≠ none) :
      Faulted p (.alloc t) (.slotAllocatedTwice t.text)
  | released {t : Temp} (h : p.frame.binding? t = some .released) :
      Faulted p (.release t) (.slotReleased t.text)
  | unbound {t : Temp} (h : p.frame.binding? t = none) :
      Faulted p (.release t) (.releaseOfUnallocated t.text)
  | placed {label : Label} (h : p.jumps.address? label ≠ none) :
      Faulted p (.place label) (.labelPlacedTwice label.text)
  | write {i : Instr} {op : Opcode} {fault : Fault} (hop : i.opcode? = some op)
      (h : fault.ofWriting) : Faulted p i fault

theorem Faulted.ofInstruction {i : Instr} {fault : Fault} (h : p.Faulted i fault) :
    fault.ofInstruction := by
  cases h with
  | write _ h => exact Fault.ofInstruction_of_ofWriting h
  | _ => rfl

theorem failsOnly_faulted {α : Type} {i : Instr} {op : Opcode} {x : Except Fault α}
    (hop : i.opcode? = some op) (h : FailsOnly (·.ofWriting) x) : FailsOnly (p.Faulted i) x :=
  fun fault hfault => .write hop (h fault hfault)

/-- A step fails because of what its instruction names. -/
theorem failsOnly_step (hfits : p.code.constants.Fits) (k : Nat) (i : Instr) :
    FailsOnly (p.Faulted i) (p.step k i) := by
  cases i with
  | alloc t =>
    rw [step_alloc]
    refine FailsOnly.bind_pure ?_ _
    by_cases h : p.frame.binding? t = none
    · rw [Frame.alloc_of_none h]
      exact .ok _
    · rw [Frame.alloc_of_ne_none h]
      exact .error (.bound h)
  | release t =>
    rw [step_release]
    refine FailsOnly.bind_pure ?_ _
    cases h : p.frame.binding? t with
    | none =>
      rw [Frame.release_of_none h]
      exact .error (.unbound h)
    | some b =>
      cases b with
      | released =>
        rw [Frame.release_of_released h]
        exact .error (.released h)
      | live r =>
        rw [Frame.release_of_live h]
        exact .ok _
  | place label =>
    refine FailsOnly.bind_pure ?_ _
    unfold Jumps.place
    split
    next h => exact .error (.placed (by simp [h]))
    · exact .ok _
  | branchIf loc cond test label =>
    exact failsOnly_faulted rfl ((failsOnly_emit hfits k loc (by cases test <;> rfl)).bind_pure _)
  | forInit loc collection item =>
    exact failsOnly_faulted rfl (((failsOnly_emit hfits k loc rfl).bind_pure _).bind_pure _)
  | forClose loc =>
    refine failsOnly_faulted rfl (FailsOnly.bind_pure (FailsOnly.bind ?_ fun x hx => ?_) _)
    · unfold Jumps.leave
      split
      · exact .error rfl
      · exact .ok _
    · exact (failsOnly_emit (p := { p with jumps := x.1 }) hfits k loc rfl).bind_pure _
  | op loc opcode args =>
    refine failsOnly_faulted rfl (FailsOnly.bind_pure ?_ _)
    unfold writeOp
    split
    · exact .error rfl
    · split
      · exact .error rfl
      next harity => exact failsOnly_emit hfits k loc (by simpa using harity)
  | copy loc | branch loc | typeIs loc | ret loc =>
    exact failsOnly_faulted rfl ((failsOnly_emit hfits k loc rfl).bind_pure _)

end Pass

/-! ## The first fault -/

namespace Program

variable {p : Program} {n : UInt32} {k : Nat} {fault : Fault}

/-- Instruction number `k` is the first that cannot be written, because of `fault`. -/
def FailsAt (p : Program) (n : UInt32) (k : Nat) (fault : Fault) : Prop :=
  ∃ i pass, p.instrs[k]? = some i ∧ Pass.Reaches n (p.instrs.take k) pass ∧
    pass.step k i = .error fault

/-- The run stops at the first instruction that fails. -/
theorem failsAt_iff_run :
    p.FailsAt n k fault ↔ (Pass.run { fixedLocals := n } 0 p.instrs).2 = .error (k, fault) := by
  constructor
  · rintro ⟨i, pass, hk, hpass, hstep⟩
    obtain ⟨hlt, rfl⟩ := List.getElem?_eq_some_iff.1 hk
    have hlength : (p.instrs.take k).length = k := List.length_take_of_le (Nat.le_of_lt hlt)
    rw [← List.take_append_drop k p.instrs, Pass.run_append _ (Pass.reaches_iff_run.1 hpass),
      hlength, Nat.zero_add, List.drop_eq_getElem_cons hlt, Pass.run, hstep]
  · intro hrun
    obtain ⟨i, pass, hk, hpass, hstep⟩ := Pass.step_of_run_error .nil hrun
    exact ⟨i, pass, hk, hpass, hstep⟩

theorem FailsAt.lt_size (h : p.FailsAt n k fault) : k < p.size := by
  obtain ⟨i, pass, hk, -⟩ := h
  exact (List.getElem?_eq_some_iff.1 hk).1

theorem FailsAt.ofInstruction (h : p.FailsAt n k fault) : fault.ofInstruction := by
  obtain ⟨i, pass, -, hpass, hstep⟩ := h
  exact (Pass.failsOnly_step hpass.ledger.fits k i fault hstep).ofInstruction

/-- Every instruction before the first that fails can be written. -/
theorem FailsAt.not_lt (h : p.FailsAt n k fault) {j : Nat} {fault' : Fault}
    (h' : p.FailsAt n j fault') : ¬ j < k := by
  intro hlt
  obtain ⟨i, pass, -, hpass, -⟩ := h
  obtain ⟨i', pass', hj, hpass', hstep'⟩ := h'
  have hj : (p.instrs.take k)[j]? = some i' := by rwa [List.getElem?_take_of_lt hlt]
  obtain ⟨q, r, event, hq, hstep⟩ := hpass.step_at hj
  rw [List.take_take, Nat.min_eq_left (Nat.le_of_lt hlt)] at hq
  rw [hq.unique hpass', hstep'] at hstep
  cases hstep

/-- What comes later does not change the first fault. -/
theorem failsAt_append_iff (q : Program) (hk : k < p.size) :
    (p.append q).FailsAt n k fault ↔ p.FailsAt n k fault := by
  have hinstr : (p.append q).instrs[k]? = p.instrs[k]? := List.getElem?_append_left hk
  have htake : (p.append q).instrs.take k = p.instrs.take k :=
    List.take_append_of_le_length (Nat.le_of_lt hk)
  rw [FailsAt, hinstr, htake, FailsAt]

theorem FailsAt.lower_eq (h : p.FailsAt n k fault) :
    (p.lower n).result = .error (.instruction k p.text fault) := by
  have hrun := failsAt_iff_run.1 h
  unfold lower
  split
  next events index fault' heq =>
    rw [heq] at hrun
    cases hrun
    rfl
  next events pass heq =>
    rw [heq] at hrun
    cases hrun

/-- If no instruction fails, the pass comes to the end of the program. -/
theorem exists_reaches_of_not_failsAt (h : ∀ k fault, ¬ p.FailsAt n k fault) :
    ∃ pass, Pass.Reaches n p.instrs pass := by
  cases hrun : (Pass.run { fixedLocals := n } 0 p.instrs).2 with
  | error e => exact absurd (failsAt_iff_run.2 hrun) (h e.1 e.2)
  | ok pass => exact ⟨pass, Pass.reaches_iff_run.2 hrun⟩

theorem fault_failure (fault : Fault) : (p.failure fault).fault = fault := by
  cases fault <;> rfl

/-- The end of the pass decides then. -/
theorem result_of_reaches {pass : Pass} (h : Pass.Reaches n p.instrs pass) :
    (p.lower n).result = pass.finish.2.mapError p.failure := by
  have hrun := Pass.reaches_iff_run.1 h
  unfold lower
  split
  next heq =>
    rw [heq] at hrun
    cases hrun
  next heq =>
    rw [heq] at hrun
    cases hrun
    split
    next hfinish => rw [hfinish]; rfl
    next hfinish => rw [hfinish]; rfl

end Program

end Assembler
