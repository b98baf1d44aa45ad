import Mathlib.Data.List.Basic
import Assembler.Proofs.Nesting
import Assembler.Proofs.Writing

/-!
# Passes along a program

What a pass holds after a list of instructions can be read off the list, without the pass: the
frame, the pool, the labels placed, the branches that wait and the loops that are open. This is the
`Ledger` of the pass, which every step keeps (`Pass.Reaches.ledger`).
-/

namespace Assembler

/-- The address words that wait for a label, in instruction number `k` at offset `off`. -/
def Instr.fixups (k off : Nat) : Instr → List Fixup
  | .branch _ label => [⟨off + 1, label, k⟩]
  | .branchIf _ _ _ label => [⟨off + 2, label, k⟩]
  | _ => []

/-- The label placed by an instruction at offset `off`, with its address. -/
def Instr.placements (_k off : Nat) : Instr → List (Label × UInt32)
  | .place label => [(label, off.toUInt32)]
  | _ => []

/-- An instruction that has code leaves the frame as it is. -/
theorem Frame.follow_of_opcode? {i : Instr} {op : Opcode} (h : i.opcode? = some op) (f : Frame) :
    f.follow i = f := by
  cases i <;> first | rfl | cases h

/-- The loop as the pass notes it. Its body starts after the four words of its opening, the last of
which is the address of its end. -/
def Opened.loop (e : Opened) : Loop :=
  ⟨e.item, (e.offset + 4).toUInt32, e.offset + 3⟩

/-- The words of an instruction that wait for a label are those of its branch. -/
theorem fieldFixups_roles (k off : Nat) (loc : Position) (l : Loop) (i : Instr) :
    fieldFixups k (off + 1) (i.roles.map (Role.field loc l)) = i.fixups k off := by
  cases i with
  | op _ opcode args =>
    show fieldFixups k (off + 1) ((args.map Arg.role).map (Role.field loc l)) = []
    rw [Arg.map_field_role]
    generalize off + 1 = off
    induction args generalizing off with
    | nil => rfl
    | cons a args ih =>
      rw [List.map_cons, fieldFixups, ih]
      cases a <;> rfl
  | _ => rfl

namespace Pass

/-! ## Reachable passes -/

/-- The pass has come to `p` after instructions `is`. -/
inductive Reaches (n : UInt32) : List Instr → Pass → Prop where
  | nil : Reaches n [] { fixedLocals := n }
  | snoc {is : List Instr} {i : Instr} {p q : Pass} {event : Option Event} (h : Reaches n is p)
      (hstep : p.step is.length i = .ok (q, event)) : Reaches n (is ++ [i]) q

theorem reaches_of_run {n : UInt32} {is js : List Instr} {p q : Pass} (h : Reaches n is p)
    (hrun : (p.run is.length js).2 = .ok q) : Reaches n (is ++ js) q := by
  induction js generalizing is p with
  | nil =>
    obtain rfl := Except.ok.inj hrun
    rwa [List.append_nil]
  | cons j js ih =>
    unfold run at hrun
    split at hrun
    · cases hrun
    next r event hstep =>
      have := ih (h.snoc hstep) (by rwa [List.length_append])
      rwa [List.append_assoc] at this

/-- A run over two parts is one over the first, and then one over the second. -/
theorem run_append {p q : Pass} {k : Nat} {is : List Instr} (js : List Instr)
    (h : (p.run k is).2 = .ok q) : (p.run k (is ++ js)).2 = (q.run (k + is.length) js).2 := by
  induction is generalizing p k with
  | nil =>
    obtain rfl := Except.ok.inj h
    rfl
  | cons i is ih =>
    unfold run at h
    split at h
    · cases h
    next r event hstep =>
      rw [List.cons_append, run, hstep, List.length_cons, Nat.add_comm is.length, ← Nat.add_assoc]
      exact ih h

theorem reaches_iff_run {n : UInt32} {is : List Instr} {q : Pass} :
    Reaches n is q ↔ (run { fixedLocals := n } 0 is).2 = .ok q := by
  constructor
  · intro h
    induction h with
    | nil => rfl
    | snoc _ hstep ih =>
      rw [run_append _ ih, Nat.zero_add, run, hstep]
      rfl
  · exact fun h => reaches_of_run .nil h

theorem Reaches.unique {n : UInt32} {is : List Instr} {p q : Pass} (hp : Reaches n is p)
    (hq : Reaches n is q) : p = q :=
  Except.ok.inj ((reaches_iff_run.1 hp).symm.trans (reaches_iff_run.1 hq))

theorem reaches_append_singleton_iff {n : UInt32} {is : List Instr} {i : Instr} {q : Pass} :
    Reaches n (is ++ [i]) q ↔
      ∃ p event, Reaches n is p ∧ p.step is.length i = .ok (q, event) := by
  constructor
  · intro h
    generalize hinstrs : is ++ [i] = instrs at h
    cases h with
    | nil => simp at hinstrs
    | @snoc is' i' p q event h hstep =>
      obtain ⟨rfl, hlast⟩ := List.append_inj' hinstrs rfl
      obtain rfl := List.singleton_inj.1 hlast
      exact ⟨p, event, h, hstep⟩
  · rintro ⟨p, event, h, hstep⟩
    exact h.snoc hstep

/-- A pass over two parts is one over the first that goes on over the second. -/
theorem reaches_append_iff {n : UInt32} {is : List Instr} (js : List Instr) {q : Pass} :
    Reaches n (is ++ js) q ↔ ∃ p, Reaches n is p ∧ (p.run is.length js).2 = .ok q := by
  constructor
  · intro h
    induction js using List.reverseRecOn generalizing q with
    | nil =>
      rw [List.append_nil] at h
      exact ⟨q, h, rfl⟩
    | append_singleton js j ih =>
      rw [← List.append_assoc, reaches_append_singleton_iff] at h
      obtain ⟨r, event, hr, hstep⟩ := h
      obtain ⟨p, hp, hrun⟩ := ih hr
      refine ⟨p, hp, ?_⟩
      rw [run_append _ hrun, ← List.length_append, run, hstep]
      rfl
  · rintro ⟨p, hp, hrun⟩
    exact reaches_of_run hp hrun

/-- Every instruction was written by a pass that had come as far. -/
theorem Reaches.step_at {n : UInt32} {is : List Instr} {q : Pass} (h : Reaches n is q) {k : Nat}
    {i : Instr} (hk : is[k]? = some i) :
    ∃ p r event, Reaches n (is.take k) p ∧ p.step k i = .ok (r, event) := by
  induction h with
  | nil => cases hk
  | @snoc is j p q event h hstep ih =>
    rcases getElem?_append_singleton_cases hk with ⟨hlt, hk⟩ | ⟨rfl, rfl⟩
    · rw [List.take_append_of_le_length (Nat.le_of_lt hlt)]
      exact ih hk
    · rw [List.take_left]
      exact ⟨p, q, event, h, hstep⟩

/-- A run that fails stops at an instruction whose step fails. -/
theorem step_of_run_error {n : UInt32} {is js : List Instr} {p : Pass} (h : Reaches n is p)
    {k : Nat} {fault : Fault} (hrun : (p.run is.length js).2 = .error (k, fault)) :
    ∃ i q, (is ++ js)[k]? = some i ∧ Reaches n ((is ++ js).take k) q ∧
      q.step k i = .error fault := by
  induction js generalizing is p with
  | nil => cases hrun
  | cons j js ih =>
    unfold run at hrun
    split at hrun
    next hstep =>
      cases hrun
      exact ⟨j, p, by simp, by rwa [List.take_left], hstep⟩
    next hstep =>
      have := ih (h.snoc hstep) (by rwa [List.length_append])
      rwa [List.append_assoc] at this

/-! ## The ledger -/

/-- What a pass holds after instructions `is`. -/
structure Ledger (n : UInt32) (is : List Instr) (p : Pass) : Prop where
  fixedLocals : p.fixedLocals = n
  frame : p.frame = Frame.after is
  constants : p.code.constants = poolOf is
  fits : p.code.constants.Fits
  size : p.code.size = span is
  current : p.current = none
  accounted : p.accounted = span is
  locs : p.code.locs.toList = is.flatMap fun i => List.replicate i.width i.loc
  placed : p.jumps.placed = (scan Instr.placements 0 0 is).reverse
  fixups : p.jumps.fixups = scan Instr.fixups 0 0 is
  loops : p.jumps.loops = (openLoops is).map Opened.loop

variable {n : UInt32} {is : List Instr} {i : Instr} {p q : Pass}

theorem Ledger.offset (h : Ledger n is p) : p.offset = span is :=
  h.size

theorem scan_append_singleton {α : Type} (g : Nat → Nat → Instr → List α) (is : List Instr)
    (i : Instr) : scan g 0 0 (is ++ [i]) = scan g 0 0 is ++ g is.length (span is) i := by
  simp [scan_append, scan]

theorem ledger_nil : Ledger n [] { fixedLocals := n } :=
  ⟨rfl, rfl, rfl, Pool.fits_empty, rfl, rfl, rfl, rfl, rfl, rfl, rfl⟩

/-- What the words of an instruction add to the pass. -/
theorem Ledger.wrote (h : Ledger n is p) {k : Nat} {op : Opcode}
    (hwrite : (i.roles.map (Role.field i.loc p.inner)).foldlM (writeField k)
      ((p.leave i).start i.loc op) = .ok q) :
    Wrote k ((p.leave i).start i.loc op) (i.roles.map (Role.field i.loc p.inner)) q :=
  wrote_of_foldlM (by rw [leave_eq]; exact h.fits) hwrite

theorem Ledger.offset_wrote (h : Ledger n is p) {op : Opcode} (hop : i.opcode? = some op)
    (hi : i.Formed)
    (hwrite : (i.roles.map (Role.field i.loc p.inner)).foldlM (writeField is.length)
      ((p.leave i).start i.loc op) = .ok q) : q.offset = span is + i.width := by
  have hpush : ((p.leave i).start i.loc op).offset = p.offset + 1 := by
    rw [leave_eq]
    exact Code.size_push _ _ _
  rw [(h.wrote hwrite).offset, hpush, h.offset, List.length_map, Instr.width_eq hi, hop]
  simp
  omega

/-- An instruction without code changes the frame or the labels only. -/
theorem Ledger.directive (h : Ledger n is p) (hop : i.opcode? = none) {f : Frame}
    {placed : List (Label × UInt32)} (hf : f = Frame.after (is ++ [i]))
    (hplaced : placed = (scan Instr.placements 0 0 (is ++ [i])).reverse) :
    Ledger n (is ++ [i]) { p with frame := f, jumps := { p.jumps with placed } } := by
  have hwidth := Instr.width_eq_zero hop
  have hconstants : i.constants = [] := by rw [Instr.constants, Instr.roles_eq_nil hop]; rfl
  have hspan : span (is ++ [i]) = span is := by simp [hwidth]
  refine ⟨h.fixedLocals, hf, ?_, h.fits, ?_, h.current, ?_, ?_, hplaced, ?_, ?_⟩
  · rw [poolOf_append_singleton, hconstants]
    exact h.constants
  · rw [hspan]
    exact h.size
  · rw [hspan]
    exact h.accounted
  · simpa [hwidth] using h.locs
  · have hfixups : i.fixups is.length (span is) = [] := by
      cases i <;> first | rfl | cases hop
    rw [scan_append_singleton, hfixups, List.append_nil]
    exact h.fixups
  · have hnest : i.nest is.length (span is) (openLoops is) = openLoops is := by
      cases i <;> first | rfl | cases hop
    rw [openLoops_append_singleton, hnest]
    exact h.loops

theorem Ledger.loops_settle (h : Ledger n is p) {op : Opcode} (hop : i.opcode? = some op)
    (hi : i.Formed)
    (hwrite : (i.roles.map (Role.field i.loc p.inner)).foldlM (writeField is.length)
      ((p.leave i).start i.loc op) = .ok q) :
    (p.settle (q.ended op) i).jumps.loops =
      (openLoops (is ++ [i])).map Opened.loop := by
  have hloops := (h.wrote hwrite).loops
  have hoffset := h.offset_wrote hop hi hwrite
  rw [openLoops_append_singleton]
  cases i with
  | forInit loc collection item =>
    have hbody : q.offset = span is + 4 := hoffset
    have hloops : q.jumps.loops = p.jumps.loops := hloops
    simp only [settle, ended, Jumps.enter, Instr.nest, List.map_cons, Opened.loop]
    rw [hloops, h.loops, h.offset, ← hbody]
    rfl
  | forClose loc =>
    have hloops : q.jumps.loops = p.jumps.loops.tail := hloops
    simp only [settle, ended, Instr.nest]
    rw [hloops, h.loops, List.map_tail]
  | _ =>
    have hloops : q.jumps.loops = p.jumps.loops := hloops
    exact hloops.trans h.loops

/-- Every step keeps the ledger. -/
theorem Ledger.step (h : Ledger n is p) (hstep : Stepped is.length p i q) :
    Ledger n (is ++ [i]) q := by
  cases hstep with
  | @alloc t hnone =>
    refine h.directive rfl ?_ ?_
    · rw [Frame.after_append_singleton, ← h.frame]
      exact (Frame.follow_alloc hnone).symm
    · rw [scan_append_singleton, h.placed]
      simp [Instr.placements]
  | @release t r hlive =>
    refine h.directive rfl ?_ ?_
    · rw [Frame.after_append_singleton, ← h.frame]
      exact (Frame.follow_release hlive).symm
    · rw [scan_append_singleton, h.placed]
      simp [Instr.placements]
  | @place label hnone =>
    refine h.directive rfl ?_ ?_
    · rw [Frame.after_append_singleton, ← h.frame]
      rfl
    · rw [scan_append_singleton, h.placed, h.offset]
      simp [Instr.placements]
  | @write i op q hop hi hclose hwrite =>
    have hoffset := h.offset_wrote hop hi hwrite
    have hloops := h.loops_settle hop hi hwrite
    have hwrote := h.wrote hwrite
    rw [leave_eq] at hwrote
    have hwidth := Instr.width_of_opcode? hop
    have hspan : span (is ++ [i]) = span is + i.width := by simp
    have hsize : (p.settle (q.ended op) i).code.size =
        span (is ++ [i]) :=
      (offset_settle _ _ _).trans (hoffset.trans hspan.symm)
    have hplacements : i.placements is.length (span is) = [] := by
      cases i <;> first | rfl | cases hop
    have hlocs : q.code.locs.toList = p.code.locs.toList ++ List.replicate i.width i.loc := by
      rw [hwrote.locs, Instr.width_eq hi, hop]
      simpa [start, push, Code.push, loc, List.replicate_succ] using i.map_position_field p.inner
    rw [settle_eq] at hsize hloops ⊢
    refine ⟨?_, ?_, ?_, hwrote.fits, hsize, rfl, ?_, ?_, ?_, ?_, hloops⟩
    · exact hwrote.fixedLocals.trans h.fixedLocals
    · rw [Frame.after_append_singleton, Frame.follow_of_opcode? hop, ← h.frame]
      exact hwrote.frame
    · rw [poolOf_append_singleton, ← i.filterMap_const?_field i.loc p.inner, ← h.constants]
      exact hwrote.constants
    · rw [hspan, ← h.accounted, hwidth]
      exact congrArg (· + op.width) hwrote.accounted
    · rw [List.flatMap_append, ← h.locs]
      simpa [ended] using hlocs
    · rw [scan_append_singleton, hplacements, List.append_nil, ← h.placed]
      exact hwrote.placed
    · have hpush : (p.start i.loc op).offset = span is + 1 := by
        rw [← h.offset]
        exact Code.size_push _ _ _
      rw [scan_append_singleton, ← fieldFixups_roles _ _ i.loc p.inner, ← h.fixups, ← hpush]
      exact hwrote.fixups

theorem Reaches.ledger (h : Reaches n is p) : Ledger n is p := by
  induction h with
  | nil => exact ledger_nil
  | snoc _ hstep ih => exact ih.step ((stepped_iff ih.fits).1 ⟨_, hstep⟩)

/-- What each instruction did to the pass when it was written. -/
theorem Reaches.stepped_at (h : Reaches n is q) {k : Nat} (hk : is[k]? = some i) :
    ∃ p r, Reaches n (is.take k) p ∧ Stepped k p i r := by
  obtain ⟨p, r, event, hp, hstep⟩ := h.step_at hk
  exact ⟨p, r, hp, (stepped_iff hp.ledger.fits).1 ⟨event, hstep⟩⟩

theorem Reaches.formed (h : Reaches n is q) {k : Nat} (hk : is[k]? = some i) : i.Formed := by
  obtain ⟨p, r, -, hstep⟩ := h.stepped_at hk
  cases hstep with
  | write _ hi _ _ => exact hi
  | _ => trivial

end Pass

end Assembler
