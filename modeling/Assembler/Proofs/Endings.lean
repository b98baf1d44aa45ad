import Assembler.Proofs.Faults
import Assembler.Proofs.WellFormed

/-!
# Endings

If every instruction of a program can be written, three things are left that can be wrong with it:
a label that is never placed, a loop that is never closed, and a frame that is too large. Lowering
reports the first of them, in this order, and the first branch to a label that is never placed
(`Pass.Reaches.ending`). If some instruction cannot be written, the first one is reported, and it
stays the first whatever comes after it (`Program.first_fault_or_ending`).
-/

namespace Assembler

/-! ## Branches without a label -/

/-- Instruction number `k` is a branch to a label that is never placed. -/
def Stray (is : List Instr) (k : Nat) (label : Label) : Prop :=
  At is k (·.target? = some label) ∧ .place label ∉ is

/-- Instruction number `k` is the first such branch. -/
def FirstStray (is : List Instr) (k : Nat) (label : Label) : Prop :=
  Stray is k label ∧ ∀ j < k, ∀ label', ¬ Stray is j label'

/-- The words that wait for a label are in the order of their branches. -/
theorem pairwise_scan_fixups (k off : Nat) (is : List Instr) :
    (scan Instr.fixups k off is).Pairwise (·.branch < ·.branch) := by
  induction is generalizing k off with
  | nil => exact .nil
  | cons i is ih =>
    rw [scan, List.pairwise_append]
    refine ⟨?_, ih _ _, fun f hf g hg => ?_⟩
    · cases i <;> simp [Instr.fixups]
    · obtain ⟨m, label, -, rfl⟩ := Instr.mem_fixups.1 hf
      obtain ⟨j, i', -, hg⟩ := (mem_scan _).1 hg
      obtain ⟨m', label', -, rfl⟩ := Instr.mem_fixups.1 hg
      show k < k + 1 + j
      omega

namespace Pass

variable {n : UInt32} {is : List Instr} {p : Pass}

theorem Ledger.stray_iff (h : Ledger n is p) {k : Nat} {label : Label} :
    Stray is k label ↔
      ∃ f ∈ p.jumps.fixups, f.branch = k ∧ f.label = label ∧ p.jumps.address? label = none := by
  have hplaced : .place label ∉ is ↔ p.jumps.address? label = none := by
    rw [h.address?_eq_none_iff, List.mem_iff_getElem?, not_exists]
  rw [Stray, hplaced]
  constructor
  · rintro ⟨⟨i, hk, htarget⟩, hnone⟩
    obtain ⟨m, hm⟩ := List.getElem?_of_mem (Instr.target?_eq_some_iff.1 htarget)
    exact ⟨_, h.mem_fixups.2 ⟨k, i, m, label, hk, hm, rfl⟩, rfl, rfl, hnone⟩
  · rintro ⟨f, hf, rfl, rfl, hnone⟩
    obtain ⟨k, i, m, label, hk, hm, rfl⟩ := h.mem_fixups.1 hf
    exact ⟨⟨i, hk, Instr.target?_eq_some_iff.2 (List.mem_of_getElem? hm)⟩, hnone⟩

/-- The addresses fail to resolve at the first branch whose label is never placed. -/
theorem Ledger.firstStray_of_resolve (h : Ledger n is p) {fault : Fault}
    (hres : p.jumps.resolve = .error fault) :
    ∃ k label, fault = .unresolvedJump label.text k ∧ FirstStray is k label := by
  obtain ⟨before, f, after, hsplit, hf, hbefore⟩ := exists_of_mapM_eq_error hres
  cases haddress : p.jumps.address? f.label with
  | some address =>
    rw [haddress] at hf
    cases hf
  | none =>
    rw [haddress] at hf
    cases hf
    have hmem : f ∈ p.jumps.fixups := hsplit ▸ List.mem_append_right _ List.mem_cons_self
    refine ⟨f.branch, f.label, rfl, h.stray_iff.2 ⟨f, hmem, rfl, rfl, haddress⟩, ?_⟩
    intro j hj label' hstray
    obtain ⟨g, hg, rfl, rfl, hnone⟩ := h.stray_iff.1 hstray
    -- the branches from `f` on have no smaller numbers, so `g` comes before `f`
    have hsorted := pairwise_scan_fixups 0 0 is
    rw [← h.fixups, hsplit, List.pairwise_append] at hsorted
    rw [hsplit, List.mem_append, List.mem_cons] at hg
    rcases hg with hg | rfl | hg
    · obtain ⟨patch, hpatch⟩ := hbefore g hg
      rw [hnone] at hpatch
      cases hpatch
    · exact Nat.lt_irrefl _ hj
    · exact Nat.lt_asymm hj (List.rel_of_pairwise_cons hsorted.2.1 hg)

theorem Ledger.not_stray_of_resolve (h : Ledger n is p) {patches : List (Nat × UInt32)}
    (hres : p.jumps.resolve = .ok patches) (k : Nat) (label : Label) : ¬ Stray is k label := by
  rintro ⟨⟨i, hk, htarget⟩, hplace⟩
  obtain ⟨m, hm⟩ := List.getElem?_of_mem (Instr.target?_eq_some_iff.1 htarget)
  obtain ⟨t, ht, -⟩ := h.exists_patch hres hk hm
  exact hplace (List.mem_of_getElem? ht)

end Pass

/-! ## Loops left open -/

namespace Instr

/-- The instruction opens a loop. -/
def opensLoop : Instr → Bool
  | forInit .. => true
  | _ => false

/-- The instruction closes a loop. -/
def closesLoop : Instr → Bool
  | forClose _ => true
  | _ => false

end Instr

/-- The number of loops opened. -/
def openings (is : List Instr) : Nat :=
  is.countP Instr.opensLoop

/-- The number of loops closed. -/
def closings (is : List Instr) : Nat :=
  is.countP Instr.closesLoop

namespace Pass

variable {n : UInt32} {is : List Instr} {p : Pass}

/-- Each loop that was opened is open still, or was closed by one instruction. -/
theorem Reaches.length_openLoops (h : Reaches n is p) :
    (openLoops is).length + closings is = openings is := by
  induction h with
  | nil => rfl
  | @snoc is i p q event h hstep ih =>
    have hstepped := (stepped_iff h.ledger.fits).1 ⟨event, hstep⟩
    rw [openLoops_append_singleton, closings, openings, List.countP_append, List.countP_append,
      ← closings, ← openings, ← ih]
    cases i with
    | forInit loc collection item =>
      simp [Instr.nest, Instr.opensLoop, Instr.closesLoop]
      omega
    | forClose loc =>
      -- a close is written only while a loop is open
      cases hstepped with
      | write _ _ hclose _ =>
        have hne := hclose loc rfl
        rw [h.ledger.loops, ne_eq, List.map_eq_nil_iff, ← List.length_eq_zero_iff] at hne
        simp [Instr.nest, Instr.opensLoop, Instr.closesLoop]
        omega
    | _ => rfl

/-- The check reports the number of loops left open. -/
theorem Reaches.check_of_open (h : Reaches n is p) (hopen : closings is < openings is) :
    p.check = .error (.unclosedLoop (openings is - closings is)) := by
  have hlength := h.length_openLoops
  have hloops : p.jumps.loops.length = openings is - closings is := by
    rw [h.ledger.loops, List.length_map]
    omega
  have hne : p.jumps.loops ≠ [] := List.ne_nil_of_length_pos (by omega)
  rw [check, if_pos hne, hloops]

end Pass

/-! ## The end of a program -/

/-- What becomes of a program of which every instruction can be written. -/
inductive Ending (n : UInt32) (p : Program) : Except Failure Code → Prop where
  | stray {k : Nat} {label : Label} (h : FirstStray p.instrs k label) :
      Ending n p (.error (.instruction k p.text (.unresolvedJump label.text k)))
  | unclosed (hplaced : ∀ k label, ¬ Stray p.instrs k label)
      (hopen : closings p.instrs < openings p.instrs) :
      Ending n p (.error
        (.finalize p.text (.unclosedLoop (openings p.instrs - closings p.instrs))))
  | oversized (hplaced : ∀ k label, ¬ Stray p.instrs k label)
      (hclosed : openings p.instrs ≤ closings p.instrs)
      (hsize : UInt32.size ≤ n.toNat + (Frame.after p.instrs).highWater.toNat) :
      Ending n p (.error (.finalize p.text (.operandOverflow 0xffffffff)))
  | ok (code : Code) (hplaced : ∀ k label, ¬ Stray p.instrs k label)
      (hclosed : openings p.instrs ≤ closings p.instrs)
      (hsize : n.toNat + (Frame.after p.instrs).highWater.toNat < UInt32.size) :
      Ending n p (.ok code)

/-- The end of the pass reports what is left that can be wrong. -/
theorem Pass.Reaches.ending {n : UInt32} {p : Program} {pass : Pass}
    (h : Pass.Reaches n p.instrs pass) (hwraps : Frame.NeverWraps p.instrs) :
    Ending n p (p.lower n).result := by
  rw [Program.result_of_reaches h, finish]
  cases hres : pass.jumps.resolve with
  | error fault =>
    obtain ⟨k, label, rfl, hfirst⟩ := h.ledger.firstStray_of_resolve hres
    exact .stray hfirst
  | ok patches =>
    have hplaced := h.ledger.not_stray_of_resolve hres
    rcases Nat.lt_or_ge (closings p.instrs) (openings p.instrs) with hopen | hclosed
    · rw [h.check_of_open hopen]
      exact .unclosed hplaced hopen
    · have hlength := h.length_openLoops
      have hloops : openLoops p.instrs = [] := List.eq_nil_of_length_eq_zero (by omega)
      rw [h.check_eq hloops hwraps, sum?]
      by_cases hfits : n.toNat + (Frame.after p.instrs).highWater.toNat < UInt32.size
      · rw [if_pos hfits]
        exact .ok _ hplaced hclosed hfits
      · rw [if_neg hfits]
        exact .oversized hplaced hclosed (Nat.le_of_not_lt hfits)

namespace Program

variable {n : UInt32} {p : Program}

theorem fault_of_failure_eq {fault fault' : Fault} {k : Nat} {text : String}
    (h : p.failure fault = .instruction k text fault') :
    ∃ label branch, fault' = .unresolvedJump label branch := by
  cases fault with
  | unresolvedJump label branch =>
    cases h
    exact ⟨label, _, rfl⟩
  | _ => cases h

/-- A fault of an instruction other than a missing label is that of the first that fails. -/
theorem failsAt_of_lower {k : Nat} {text : String} {fault : Fault}
    (h : (p.lower n).result = .error (.instruction k text fault))
    (hfault : ∀ label branch, fault ≠ .unresolvedJump label branch) : p.FailsAt n k fault := by
  cases hrun : (Pass.run { fixedLocals := n } 0 p.instrs).2 with
  | error e =>
    have hfails : p.FailsAt n e.1 e.2 := failsAt_iff_run.2 hrun
    cases hfails.lower_eq.symm.trans h
    exact hfails
  | ok pass =>
    rw [result_of_reaches (Pass.reaches_iff_run.2 hrun)] at h
    cases hfinish : pass.finish.2 with
    | ok code =>
      rw [hfinish] at h
      cases h
    | error fault' =>
      rw [hfinish] at h
      obtain ⟨label, branch, rfl⟩ := fault_of_failure_eq (Except.error.inj h)
      exact absurd rfl (hfault label branch)

/-- If some instruction cannot be written, the result names the first one and its fault, also when
more instructions follow, and a fault in the first part of a longer program is one of that part. If
all can be written, the end of the program decides. -/
theorem first_fault_or_ending (p : Program) (n : UInt32)
    (hallocs : allocations p.instrs < UInt32.size) :
    (∀ k fault, p.FailsAt n k fault →
      (p.lower n).result = .error (.instruction k p.text fault) ∧
      (∀ j < k, ∀ fault', ¬ p.FailsAt n j fault') ∧
      (∀ label branch, fault ≠ .unresolvedJump label branch) ∧
      ∀ q : Program, ((p.append q).lower n).result =
        .error (.instruction k (p.append q).text fault)) ∧
    (∀ (q : Program) k text fault, k < p.size →
      (∀ label branch, fault ≠ .unresolvedJump label branch) →
      ((p.append q).lower n).result = .error (.instruction k text fault) →
      (p.lower n).result = .error (.instruction k p.text fault)) ∧
    ((∀ k fault, ¬ p.FailsAt n k fault) → Ending n p (p.lower n).result) := by
  refine ⟨fun k fault h => ⟨h.lower_eq, fun j hj fault' h' => h.not_lt h' hj, ?_, fun q => ?_⟩,
    fun q k text fault hk hfault h => ?_, fun h => ?_⟩
  · rintro label branch rfl
    cases h.ofInstruction
  · exact ((failsAt_append_iff q h.lt_size).2 h).lower_eq
  · exact ((failsAt_append_iff q hk).1 (failsAt_of_lower h hfault)).lower_eq
  · obtain ⟨pass, hpass⟩ := exists_reaches_of_not_failsAt h
    exact hpass.ending (Frame.neverWraps_of_allocations hallocs)

/-- A branch to a label that is never placed, in a loop that is never closed, followed by a copy
from a temporary that is not allocated. -/
def unboundCopy : Program :=
  let loc : Position := ⟨1, 1⟩
  ⟨[.forInit loc (.global 0) (.fixed ⟨0⟩),
    .branch loc ⟨0⟩,
    .copy loc (.var (.temp ⟨5, "x"⟩)) (.fixed ⟨0⟩)]⟩

/-- The copy is at fault, whatever follows. Without it, the end of the program decides. -/
theorem first_fault_unboundCopy :
    allocations unboundCopy.instrs < UInt32.size ∧
      (∀ q : Program, ((unboundCopy.append q).lower 1).result = .error
        (.instruction 2 (unboundCopy.append q).text (.unresolvedSlot "x#5"))) ∧
      Ending 1 ⟨unboundCopy.instrs.take 2⟩
        (Program.lower ⟨unboundCopy.instrs.take 2⟩ 1).result := by
  have hallocs : allocations unboundCopy.instrs < UInt32.size := by decide
  have hfails : unboundCopy.FailsAt 1 2 (.unresolvedSlot "x#5") := failsAt_iff_run.2 (by decide)
  have hok : (Pass.run { fixedLocals := 1 } 0 (unboundCopy.instrs.take 2)).2.toOption.isSome := by
    decide
  refine ⟨hallocs, ((first_fault_or_ending unboundCopy 1 hallocs).1 _ _ hfails).2.2.2, ?_⟩
  refine (first_fault_or_ending ⟨unboundCopy.instrs.take 2⟩ 1 (by decide)).2.2 fun k fault h => ?_
  rw [failsAt_iff_run.1 h] at hok
  cases hok

end Program

end Assembler
