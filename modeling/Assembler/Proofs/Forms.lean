import Mathlib.Data.List.Forall2
import Assembler.Proofs.Faults
import Assembler.Proofs.Finishing

/-!
# Two forms of one operation

A copy, a type test and a return can also be written as plain operations, and an argument that is a
constant or a variable can be written in two ways. A program in which any of them are written in the
other form has the same events and the same code, or the same fault at the same instruction
(`Program.sameVerdict_of_restated`). A step of the pass does not see which form it was
(`Instr.Restated.step_eq`).
-/

namespace Assembler

/-! ## Forms -/

/-- The second argument is the first, or the same constant or variable in its other form. -/
inductive Arg.Restated : Arg → Arg → Prop where
  | same (a : Arg) : Restated a a
  | const (c : Constant) : Restated (.input (.const c)) (.const c)
  | var (v : Var) : Restated (.input (.var v)) (.output v)

/-- The second instruction is the first, or the same operation as a plain one. Arguments may be
restated too. -/
inductive Instr.Restated : Instr → Instr → Prop where
  | same (i : Instr) : Restated i i
  | copy (loc : Position) (src : Slot) (dest : Var) {args : List Arg}
      (h : List.Forall₂ Arg.Restated [.input src, .output dest] args) :
      Restated (.copy loc src dest) (.op loc .copy args)
  | ret (loc : Position) (value : Slot) {args : List Arg}
      (h : List.Forall₂ Arg.Restated [.input value] args) :
      Restated (.ret loc value) (.op loc .ret args)
  | typeIs (loc : Position) (expr : Slot) (type : String) (result : Var) {args : List Arg}
      (h : List.Forall₂ Arg.Restated [.input expr, .const (.str type), .output result] args) :
      Restated (.typeIs loc expr type result) (.op loc .typeIs args)
  | op (loc : Position) (opcode : Opcode) {args args' : List Arg}
      (h : List.Forall₂ Arg.Restated args args') :
      Restated (.op loc opcode args) (.op loc opcode args')

/-- The second program is the first with some of its instructions restated. -/
def Program.Restated (p q : Program) : Prop :=
  List.Forall₂ Instr.Restated p.instrs q.instrs

theorem Arg.Restated.field_eq {a b : Arg} (h : a.Restated b) : b.field = a.field := by
  cases h <;> rfl

theorem map_field_eq_of_restated {as bs : List Arg} (h : List.Forall₂ Arg.Restated as bs) :
    bs.map Arg.field = as.map Arg.field := by
  induction h with
  | nil => rfl
  | cons h _ ih => rw [List.map_cons, List.map_cons, h.field_eq, ih]

/-! ## Passes -/

namespace Pass

variable {p : Pass} {k : Nat} {loc : Position}

/-- A plain operation depends on the fields of its arguments only. -/
theorem writeOp_eq_of_restated {as bs : List Arg} (h : List.Forall₂ Arg.Restated as bs)
    (op : Opcode) : p.writeOp k loc op bs = p.writeOp k loc op as := by
  unfold writeOp
  rw [h.length_eq, map_field_eq_of_restated h]

/-- What is checked of a plain operation is true of the instruction that it restates, so both are
written alike. -/
theorem writeOp_eq_emit {op : Opcode} {args : List Arg} (hop : op.isReserved = false)
    (hargs : args.length = op.operandCount) :
    p.writeOp k loc op args = p.emit k loc op (args.map Arg.field) := by
  rw [writeOp, if_neg (by simp [hop]), if_neg (by simp [hargs])]

end Pass

/-- A step does not see in which form an instruction is written. -/
theorem Instr.Restated.step_eq {i j : Instr} (h : i.Restated j) (p : Pass) (k : Nat) :
    p.step k j = p.step k i := by
  cases h with
  | same => rfl
  | copy loc src dest h =>
    rw [Pass.step, Pass.step, Pass.writeOp_eq_of_restated h, Pass.writeOp_eq_emit rfl rfl]
    rfl
  | ret loc value h =>
    rw [Pass.step, Pass.step, Pass.writeOp_eq_of_restated h, Pass.writeOp_eq_emit rfl rfl]
    rfl
  | typeIs loc expr type result h =>
    rw [Pass.step, Pass.step, Pass.writeOp_eq_of_restated h, Pass.writeOp_eq_emit rfl rfl]
    rfl
  | op loc opcode h => rw [Pass.step, Pass.step, Pass.writeOp_eq_of_restated h]

theorem Pass.run_eq_of_restated {is js : List Instr} (h : List.Forall₂ Instr.Restated is js)
    (p : Pass) (k : Nat) : p.run k js = p.run k is := by
  induction h generalizing p k with
  | nil => rfl
  | cons h _ ih =>
    rw [run, run, h.step_eq]
    cases p.step k _ with
    | error fault => rfl
    | ok result => simp only [ih]

/-! ## Programs -/

/-- The programs have the same code, or the same fault at the same place. -/
inductive SameVerdict (p q : Program) : Except Failure Code → Except Failure Code → Prop where
  | ok (code : Code) : SameVerdict p q (.ok code) (.ok code)
  | instruction (k : Nat) (fault : Fault) :
      SameVerdict p q (.error (.instruction k p.text fault)) (.error (.instruction k q.text fault))
  | finalize (fault : Fault) :
      SameVerdict p q (.error (.finalize p.text fault)) (.error (.finalize q.text fault))

theorem SameVerdict.eq_ok {p q : Program} {code : Code} {result : Except Failure Code}
    (h : SameVerdict p q (.ok code) result) : result = .ok code := by
  cases h
  rfl

theorem SameVerdict.eq_instruction {p q : Program} {k : Nat} {fault : Fault}
    {result : Except Failure Code}
    (h : SameVerdict p q (.error (.instruction k p.text fault)) result) :
    result = .error (.instruction k q.text fault) := by
  cases h
  rfl

namespace Program

variable {p q : Program}

theorem sameVerdict_failure (fault : Fault) :
    SameVerdict p q (.error (p.failure fault)) (.error (q.failure fault)) := by
  cases fault with
  | unresolvedJump label branch => exact .instruction branch _
  | _ => exact .finalize _

theorem Restated.size_eq (h : p.Restated q) : q.size = p.size :=
  h.length_eq.symm

/-- A program with some of its instructions in the other form has the same events, and the same code
or the same fault at the same place. -/
theorem sameVerdict_of_restated (h : p.Restated q) (n : UInt32) :
    (q.lower n).events = (p.lower n).events ∧
      SameVerdict p q (p.lower n).result (q.lower n).result := by
  have hrun := Pass.run_eq_of_restated h { fixedLocals := n } 0
  unfold lower
  rw [hrun, h.size_eq]
  cases Pass.run { fixedLocals := n } 0 p.instrs with
  | mk events result =>
    cases result with
    | error e => exact ⟨rfl, .instruction e.1 e.2⟩
    | ok pass =>
      dsimp only
      cases pass.finish with
      | mk warnings result =>
        cases result with
        | error fault => exact ⟨rfl, sameVerdict_failure fault⟩
        | ok code => exact ⟨rfl, .ok code⟩

end Program

/-- The search with its type test, its addition and its return in their other forms. -/
def plainSearchLoop : Program :=
  let loc : Position := ⟨1, 1⟩
  let row : Temp := ⟨0, "row"⟩
  let item : Temp := ⟨1, "item"⟩
  let done : Label := ⟨0⟩
  ⟨[.alloc row,
    .forInit loc (.global 7) (.temp row),
    .alloc item,
    .forInit loc (.var (.temp row)) (.temp item),
    .op loc .typeIs [.output (.temp item), .const (.str "str"), .output (.fixed ⟨1⟩)],
    .branchIf loc (.fixed ⟨1⟩) .whenTrue done,
    .op loc .add [.output (.temp item), .const (.int 1), .output (.fixed ⟨0⟩)],
    .forClose loc,
    .release item,
    .forClose loc,
    .place done,
    .release row,
    .op loc .ret [.input (.var (.fixed ⟨0⟩))]]⟩

theorem restated_plainSearchLoop : searchLoop.Restated plainSearchLoop := by
  refine .cons (.same _) (.cons (.same _) (.cons (.same _) (.cons (.same _) (.cons ?typeIs
    (.cons (.same _) (.cons ?add (.cons (.same _) (.cons (.same _) (.cons (.same _)
      (.cons (.same _) (.cons (.same _) (.cons ?ret .nil))))))))))))
  case typeIs => exact .typeIs _ _ _ _ (.cons (.var _) (.cons (.same _) (.cons (.same _) .nil)))
  case add => exact .op _ _ (.cons (.var _) (.cons (.same _) (.cons (.same _) .nil)))
  case ret => exact .ret _ _ (.cons (.same _) .nil)

/-- With two fixed locals it has the code of the search. With one, it fails at the type test as the
search does. -/
theorem sameVerdict_plainSearchLoop :
    searchLoop.Restated plainSearchLoop ∧ plainSearchLoop ≠ searchLoop ∧
      (plainSearchLoop.lower 2).result = .ok searchCode ∧
        (plainSearchLoop.lower 1).result =
          .error (.instruction 4 plainSearchLoop.text (.localOutOfFrame 1 1)) := by
  have hfails : searchLoop.FailsAt 1 4 (.localOutOfFrame 1 1) :=
    Program.failsAt_iff_run.2 (by decide)
  have htwo := (Program.sameVerdict_of_restated restated_plainSearchLoop 2).2
  have hone := (Program.sameVerdict_of_restated restated_plainSearchLoop 1).2
  rw [lower_searchLoop] at htwo
  rw [hfails.lower_eq] at hone
  exact ⟨restated_plainSearchLoop, by decide, htwo.eq_ok, hone.eq_instruction⟩

end Assembler
