import Assembler.Proofs.Faults
import Assembler.Proofs.WellFormed

/-!
# Failing by overflow only

A step that finds all it needs in the pass, each temporary live and each label still to come, can
fail for one reason only: the number of a place is too large for an operand word
(`Pass.Ready.onlyOverflows_step`). If that is so at every step, and all loops are closed and all
labels placed at the end, then this is the only fault a program can have
(`Program.exists_overflow_of_lower`).
-/

namespace Assembler

/-- The computation fails for a number that is too large, if it fails. -/
def OnlyOverflows {α : Type} (x : Except Fault α) : Prop :=
  ∀ fault, x = .error fault → ∃ index, fault = .operandOverflow index

namespace OnlyOverflows

variable {α β : Type}

theorem ok (a : α) : OnlyOverflows (.ok a) :=
  FailsOnly.ok a

theorem overflow (index : UInt32) : OnlyOverflows (.error (.operandOverflow index) : Except _ α) :=
  FailsOnly.error ⟨index, rfl⟩

theorem bind {x : Except Fault α} {f : α → Except Fault β} (hx : OnlyOverflows x)
    (hf : ∀ a, x = .ok a → OnlyOverflows (f a)) : OnlyOverflows (x >>= f) :=
  FailsOnly.bind hx hf

/-- Where the first part succeeds, the second decides. -/
theorem bind_ok {x : Except Fault α} {a : α} {f : α → Except Fault β} (hx : x = .ok a)
    (hf : OnlyOverflows (f a)) : OnlyOverflows (x >>= f) := by
  rw [hx]
  exact hf

theorem bind_pure {x : Except Fault α} (hx : OnlyOverflows x) (f : α → β) :
    OnlyOverflows (x >>= fun a => pure (f a)) :=
  hx.bind fun a _ => ok (f a)

end OnlyOverflows

theorem onlyOverflows_operand (kind : Kind) (index : UInt32) :
    OnlyOverflows (operand kind index) := by
  unfold operand
  split
  · exact .ok _
  · exact .overflow index

/-! ## Writing fields -/

/-- The pass knows what the field stands for: a variable has a frame index, and a label is still to
come. -/
def Field.Known (p : Pass) : Field → Prop
  | slot (.var v) => ∃ index, v.index? p.fixedLocals p.frame = some index
  | jump label => p.jumps.address? label = none
  | _ => True

theorem Field.known_congr {p q : Pass} (hlocals : q.fixedLocals = p.fixedLocals)
    (hframe : q.frame = p.frame) (hplaced : q.jumps.placed = p.jumps.placed) (d : Field) :
    d.Known q ↔ d.Known p := by
  cases d with
  | slot s => cases s <;> simp [Known, hlocals, hframe]
  | word w | located loc w => exact Iff.rfl
  | jump label => simp [Known, Jumps.address?, hplaced]

namespace Pass

variable {n : UInt32} {is : List Instr} {i : Instr} {p : Pass}

theorem onlyOverflows_frameIndex {v : Var}
    (h : ∃ index, v.index? p.fixedLocals p.frame = some index) :
    OnlyOverflows (p.frameIndex v) := by
  obtain ⟨index, hindex⟩ := h
  cases v with
  | fixed l =>
    simp only [Var.index?] at hindex
    split at hindex
    next hlt =>
      rw [frameIndex, if_pos hlt]
      exact .ok _
    · cases hindex
  | temp t =>
    obtain ⟨r, hr, -⟩ := Option.map_eq_some_iff.1 hindex
    refine .bind_ok (Frame.resolve_eq_ok_iff.2 hr) ?_
    split
    · exact .ok _
    · exact .overflow _

theorem onlyOverflows_writeField (k : Nat) {d : Field} (h : d.Known p) :
    OnlyOverflows (p.writeField k d) := by
  cases d with
  | slot s =>
    cases s with
    | var v =>
      exact (onlyOverflows_frameIndex h).bind fun index _ => (onlyOverflows_operand _ _).bind_pure _
    | global index | cell index | free index | const c =>
      exact (onlyOverflows_operand _ _).bind_pure _
  | word w | located loc w => exact .ok _
  | jump label => exact .bind_ok (await_eq_ok_iff.2 ⟨h, rfl⟩) (.ok _)

theorem onlyOverflows_foldlM (k : Nat) (hfits : p.code.constants.Fits)
    {ds : List Field} (h : ∀ d ∈ ds, d.Known p) :
    OnlyOverflows (ds.foldlM (writeField k) p) := by
  induction ds generalizing p with
  | nil => exact .ok p
  | cons d ds ih =>
    rw [List.foldlM_cons]
    refine (onlyOverflows_writeField k (h d List.mem_cons_self)).bind fun q hq => ?_
    have hwrote := wrote_writeField hfits hq
    refine ih hwrote.fits fun e he => ?_
    rw [Field.known_congr hwrote.fixedLocals hwrote.frame hwrote.placed]
    exact h e (List.mem_cons_of_mem _ he)

/-! ## Steps -/

/-- The pass has all that an instruction needs. -/
structure Ready (p : Pass) (i : Instr) : Prop where
  formed : i.Formed
  unbound : ∀ {t}, i = .alloc t → p.frame.binding? t = none
  live : ∀ {t}, i = .release t → ∃ r, p.frame.cell? t = some r
  unplaced : ∀ {label}, i = .place label → p.jumps.address? label = none
  opened : ∀ {loc}, i = .forClose loc → p.jumps.loops ≠ []
  known : ∀ {role}, role ∈ i.roles → (role.field i.loc p.inner).Known p

theorem Ready.onlyOverflows_emit (h : p.Ready i) (hfits : p.code.constants.Fits) (k : Nat)
    {op : Opcode} (hop : i.opcode? = some op) :
    OnlyOverflows ((p.leave i).emit k i.loc op (i.roles.map (Role.field i.loc p.inner))) := by
  have hleave : (p.leave i).code.constants.Fits := by
    rw [leave_eq]
    exact hfits
  have hwrite : OnlyOverflows ((i.roles.map (Role.field i.loc p.inner)).foldlM (writeField k)
      ((p.leave i).start i.loc op)) := by
    refine onlyOverflows_foldlM (p := (p.leave i).start i.loc op) k hleave fun d hd => ?_
    obtain ⟨role, hrole, rfl⟩ := List.mem_map.1 hd
    have hknown := h.known hrole
    rw [leave_eq]
    exact hknown
  exact failsOnly_emit_of_fields hleave (by rw [List.length_map, Instr.length_roles hop h.formed])
    hwrite

/-- A step that finds all it needs fails by overflow only. -/
theorem Ready.onlyOverflows_step (h : p.Ready i) (hfits : p.code.constants.Fits) (k : Nat) :
    OnlyOverflows (p.step k i) := by
  have hemit {op : Opcode} (hop : i.opcode? = some op) := h.onlyOverflows_emit hfits k hop
  cases i with
  | alloc t =>
    rw [step_alloc_eq_ok_iff.2 ⟨h.unbound rfl, rfl, rfl⟩]
    exact .ok _
  | release t =>
    obtain ⟨r, hr⟩ := h.live rfl
    rw [step_release_eq_ok_iff.2 ⟨r, Frame.cell?_eq_some_iff.1 hr, rfl, rfl⟩]
    exact .ok _
  | place label => exact .bind_ok (place_eq_ok_iff.2 ⟨h.unplaced rfl, rfl⟩) (.ok _)
  | forInit loc collection item => exact ((hemit rfl).bind_pure _).bind_pure _
  | forClose loc =>
    cases hloops : p.jumps.loops with
    | nil => exact absurd hloops (h.opened rfl)
    | cons l loops =>
      have hemit := hemit rfl
      have hinner : p.inner = l := by simp [inner, hloops]
      have hleave : p.leave (.forClose loc) = { p with jumps := { p.jumps with loops } } := by
        simp [leave, hloops]
      rw [hinner, hleave] at hemit
      have hjumps : p.jumps.leave = .ok ({ p.jumps with loops }, l) := by
        simp [Jumps.leave, hloops]
      exact .bind_pure (.bind_ok hjumps (hemit.bind_pure _)) _
  | op loc opcode args =>
    have hemit := hemit rfl
    obtain ⟨hreserved, harity⟩ := h.formed
    refine .bind_pure ?_ _
    rw [writeOp, if_neg (by simp [hreserved]), if_neg (by simp [harity]),
      ← Arg.map_field_role loc p.inner]
    exact hemit
  | copy | branch | branchIf | typeIs | ret => exact (hemit rfl).bind_pure _

/-! ## Programs -/

/-- If all loops are closed, all indices are in the frame and every branch has its label, the end of
the pass fails by overflow only. -/
theorem Ledger.onlyOverflows_finish (h : Ledger n is p) (hloops : openLoops is = [])
    (hlocals : p.LocalsBelow (n.toNat + (Frame.after is).highWater.toNat))
    (hplaced : ∀ {k : Nat} {i label}, is[k]? = some i → i.target? = some label →
      ∃ t : Nat, is[t]? = some (.place label)) : OnlyOverflows p.finish.2 := by
  obtain ⟨patches, hres⟩ := h.exists_resolve hplaced
  rw [finish, hres, h.check_eq hloops hlocals]
  cases sum? n (Frame.after is).highWater with
  | none => exact .overflow _
  | some frameSize => exact .ok _

end Pass

namespace Program

variable {n : UInt32} {p : Program}

/-- If every step and the end of the pass fail by overflow only, so does the program. -/
theorem exists_overflow_of_lower
    (hsteps : ∀ {k : Nat} {i q}, p.instrs[k]? = some i → Pass.Reaches n (p.instrs.take k) q →
      OnlyOverflows (q.step k i))
    (hfinish : ∀ {q}, Pass.Reaches n p.instrs q → OnlyOverflows q.finish.2) {e : Failure}
    (h : (p.lower n).result = .error e) : ∃ index, e.fault = .operandOverflow index := by
  unfold lower at h
  split at h
  next events k fault hrun =>
    cases h
    obtain ⟨i, q, hi, hq, hstep⟩ := Pass.step_of_run_error .nil (congrArg Prod.snd hrun)
    exact hsteps hi hq fault hstep
  next events pass hrun =>
    have hpass : Pass.Reaches n p.instrs pass := Pass.reaches_iff_run.2 (congrArg Prod.snd hrun)
    split at h
    next warnings fault hfail =>
      cases h
      rw [fault_failure]
      exact hfinish hpass fault (congrArg Prod.snd hfail)
    next => cases h

end Program

end Assembler
