import Assembler.Proofs.Decoding

/-!
# Recognised programs

A caller may put in place of a call what it recognises in a program: a constant that is returned at
once, or a type test of the first parameter. The code of the program, and of every program that
starts with it, begins with just that (`Program.recognized_of_lower`). Whatever follows adds
constants and patches addresses behind it.
-/

namespace Assembler

/-! ## The first constant -/

theorem Pool.add_empty (c : Constant) : (({} : Pool).add c).1 = ⟨[c]⟩ := rfl

/-- The first constant of a program is the first of its pool, as it is written. -/
theorem poolOf_of_constants {is : List Instr} {c : Constant} {cs : List Constant}
    (h : is.flatMap Instr.constants = c :: cs) :
    (poolOf is).get? 0 = some c ∧ (poolOf is).indexOf? c = some 0 := by
  have hprefix : [c] <+: (poolOf is).entries := by
    rw [poolOf, h, Pool.addAll_cons, Pool.add_empty]
    exact Pool.prefix_addAll ⟨[c]⟩ cs
  constructor
  · obtain ⟨rest, hrest⟩ := hprefix
    rw [Pool.get?, ← hrest]
    rfl
  · refine Pool.indexOf?_of_isPrefix (p := ⟨[c]⟩) hprefix ?_
    simp [Pool.indexOf?, c.same_refl]

/-! ## Words read back -/

/-- The word denotes the place of a kind with a number. -/
def Denotes (w : UInt32) (kind : Kind) (index : UInt32) : Prop :=
  ∃ o : Operand, Operand.decode? w = some o ∧ o.kind = kind ∧ o.index = index

theorem Slot.Word.denotes {n : UInt32} {f : Frame} {pool : Pool} {s : Slot} {w : UInt32}
    (h : s.Word n f pool w) {kind : Kind} {index : UInt32}
    (hplace : s.place? n f pool = some (kind, index.toNat)) : Denotes w kind index := by
  obtain ⟨o, ho, rfl⟩ := h
  rw [hplace, Option.some.injEq, Prod.mk.injEq, UInt32.toNat_inj] at ho
  exact ⟨o, o.decode?_encode, ho.1.symm, ho.2.symm⟩

namespace Code

/-- The code starts by returning the first constant, which is `c`. -/
structure ReturnsConstant (code : Code) (c : Constant) : Prop where
  ret : ∃ w, code.decodeAt? 0 = some ⟨0, .ret, [w]⟩ ∧ Denotes w .const 0
  constant : code.constant? 0 = some c

/-- The code starts with the outcome of a type test of the first of its `n` fixed locals, which it
returns from the cell above them. -/
structure ReturnsTypeTest (code : Code) (n : UInt32) (type : String) : Prop where
  fixed : 0 < n
  test : ∃ param name result, code.decodeAt? 0 = some ⟨0, .typeIs, [param, name, result]⟩ ∧
    Denotes param .frame 0 ∧ Denotes name .const 0 ∧ Denotes result .frame n
  ret : ∃ value, code.decodeAt? 4 = some ⟨4, .ret, [value]⟩ ∧ Denotes value .frame n
  constant : code.constant? 0 = some (.str type)

end Code

/-! ## Shapes -/

namespace Program

variable {p : Program} {n : UInt32} {code : Code}

theorem constantResult?_eq_some_iff {c : Constant} :
    p.constantResult? = some c ↔ ∃ loc rest, p.instrs = .ret loc (.const c) :: rest := by
  unfold constantResult?
  split
  next loc value rest heq =>
    rw [heq]
    cases value <;> simp [Slot.const?]
  next h =>
    simp only [reduceCtorEq, false_iff, not_exists]
    exact fun loc rest heq => h loc _ rest heq

/-- The instructions start with a type test of the first parameter into a temporary of their own,
and return its outcome. -/
inductive TypeTest (type : String) : List Instr → Prop where
  | mk {t result value : Temp} (loc loc' : Position) (rest : List Instr)
      (hresult : result.id = t.id) (hvalue : value.id = t.id) :
      TypeTest type (.alloc t :: .typeIs loc (.var (.fixed ⟨0⟩)) type (.temp result) ::
        .ret loc' (.var (.temp value)) :: rest)

theorem TypeTest.append {type : String} {is : List Instr} (h : TypeTest type is) (js : List Instr) :
    TypeTest type (is ++ js) := by
  cases h with
  | mk loc loc' rest hresult hvalue => exact .mk loc loc' (rest ++ js) hresult hvalue

theorem TypeTest.constants {type : String} {is : List Instr} (h : TypeTest type is) :
    ∃ cs, is.flatMap Instr.constants = .str type :: cs := by
  cases h with
  | mk loc loc' rest => exact ⟨_, rfl⟩

theorem typeTestResult?_eq_some_iff {type : String} :
    p.typeTestResult? = some type ↔ TypeTest type p.instrs := by
  constructor
  · unfold typeTestResult?
    split
    next t loc param type' result loc' value rest heq =>
      split
      next h =>
        rintro ⟨⟩
        obtain ⟨hparam, hresult, hvalue⟩ := h
        obtain ⟨index⟩ := param
        obtain rfl : index = 0 := hparam
        rw [heq]
        exact .mk loc loc' rest hresult hvalue
      · rintro ⟨⟩
    · rintro ⟨⟩
  · obtain ⟨instrs⟩ := p
    rintro ⟨loc, loc', rest, hresult, hvalue⟩
    simp [typeTestResult?, hresult, hvalue]

/-! ## Lowered code -/

theorem exists_decodeAt?_of_lower (h : (p.lower n).result = .ok code) {k : Nat} {i : Instr}
    (hk : p.instrs[k]? = some i) {op : Opcode} (hop : i.opcode? = some op) :
    ∃ ws, code.decodeAt? (offsetOf p.instrs k) = some ⟨offsetOf p.instrs k, op, ws⟩ ∧
      List.Forall₂ (Role.Means n p.instrs (LabelAddress p.instrs) k) i.roles ws :=
  Code.exists_decodeAt? (image_of_lower h k) (size_of_lower h) hk (formed_of_lower h hk) hop

theorem returnsConstant_of_lower {c : Constant} (hp : p.constantResult? = some c)
    (h : (p.lower n).result = .ok code) : code.ReturnsConstant c := by
  obtain ⟨loc, rest, hinstrs⟩ := constantResult?_eq_some_iff.1 hp
  have hk : p.instrs[0]? = some (.ret loc (.const c)) := by rw [hinstrs]; rfl
  have hconstants : p.instrs.flatMap Instr.constants = c :: rest.flatMap Instr.constants := by
    rw [hinstrs]
    rfl
  obtain ⟨hget, hindex⟩ := poolOf_of_constants hconstants
  obtain ⟨ws, hdecode, hmeans⟩ := exists_decodeAt?_of_lower h hk rfl
  cases hmeans with
  | cons hw hrest =>
    cases hrest
    refine ⟨⟨_, hdecode, Slot.Word.denotes hw ?_⟩, ?_⟩
    · rw [Slot.place?, hindex]
      rfl
    · rw [Code.constant?, constants_of_lower h, hget]

/-- The temporary that is allocated first has the first cell. -/
theorem place?_alloc {t u : Temp} (hid : u.id = t.id) (n : UInt32) (pool : Pool) :
    (Slot.var (.temp u)).place? n (Frame.after [.alloc t]) pool = some (.frame, n.toNat) := by
  have hcell : (Frame.after [.alloc t]).cell? u = some 0 := by
    rw [Frame.cell?_eq_some_iff, Frame.binding?_congr _ hid]
    show (Frame.allocated {} t).binding? t = _
    rw [Frame.binding?_allocated, if_pos rfl]
    rfl
  rw [Slot.place?, Var.index?, hcell]
  rfl

theorem returnsTypeTest_of_lower {type : String} (hp : p.typeTestResult? = some type)
    (h : (p.lower n).result = .ok code) : code.ReturnsTypeTest n type := by
  have hshape := typeTestResult?_eq_some_iff.1 hp
  obtain ⟨cs, hconstants⟩ := hshape.constants
  obtain ⟨hget, hindex⟩ := poolOf_of_constants hconstants
  obtain ⟨instrs⟩ := p
  obtain ⟨loc, loc', rest, hresult, hvalue⟩ := hshape
  obtain ⟨ws, htest, hmeans⟩ := exists_decodeAt?_of_lower h (k := 1) rfl rfl
  obtain ⟨ws', hret, hmeans'⟩ := exists_decodeAt?_of_lower h (k := 2) rfl rfl
  obtain _ | ⟨hparam, _ | ⟨hname, _ | ⟨hout, _ | _⟩⟩⟩ := hmeans
  obtain _ | ⟨hin, _ | _⟩ := hmeans'
  have hpos : 0 < n := by
    obtain ⟨o, ho, -⟩ := hparam
    obtain ⟨index, hindex, -⟩ := Option.map_eq_some_iff.1 ho
    simp only [Var.index?] at hindex
    split at hindex
    next hlt => exact hlt
    · cases hindex
  refine ⟨hpos, ⟨_, _, _, htest, ?_, ?_, ?_⟩, ⟨_, hret, ?_⟩, ?_⟩
  · refine Slot.Word.denotes hparam ?_
    rw [Slot.place?, Var.index?, if_pos hpos]
    rfl
  · refine Slot.Word.denotes hname ?_
    rw [Slot.place?, hindex]
    rfl
  · exact Slot.Word.denotes hout (place?_alloc hresult n _)
  · exact Slot.Word.denotes hin (place?_alloc hvalue n _)
  · rw [Code.constant?, constants_of_lower h, hget]

/-- What is recognised in a program is what its code starts with, also if more follows. -/
theorem recognized_of_lower (u v : Program) (n : UInt32) :
    (∀ c, u.constantResult? = some c →
      (u.append v).constantResult? = some c ∧
        ∀ code, (u.lower n).result = .ok code ∨ ((u.append v).lower n).result = .ok code →
          code.ReturnsConstant c) ∧
      ∀ type, u.typeTestResult? = some type →
        (u.append v).typeTestResult? = some type ∧
          ∀ code, (u.lower n).result = .ok code ∨ ((u.append v).lower n).result = .ok code →
            code.ReturnsTypeTest n type := by
  constructor
  · intro c hu
    have huv : (u.append v).constantResult? = some c := by
      obtain ⟨loc, rest, hinstrs⟩ := constantResult?_eq_some_iff.1 hu
      refine constantResult?_eq_some_iff.2 ⟨loc, rest ++ v.instrs, ?_⟩
      rw [append, hinstrs, List.cons_append]
    refine ⟨huv, fun code h => ?_⟩
    rcases h with h | h
    · exact returnsConstant_of_lower hu h
    · exact returnsConstant_of_lower huv h
  · intro type hu
    have huv : (u.append v).typeTestResult? = some type :=
      typeTestResult?_eq_some_iff.2 ((typeTestResult?_eq_some_iff.1 hu).append v.instrs)
    refine ⟨huv, fun code h => ?_⟩
    rcases h with h | h
    · exact returnsTypeTest_of_lower hu h
    · exact returnsTypeTest_of_lower huv h

/-- The return of a float, given by its bits. -/
def floatReturn (bits : UInt64) : Program :=
  ⟨[.ret ⟨1, 1⟩ (.const (.float ⟨bits⟩))]⟩

/-- A return of negative zero, with a return of positive zero after it. Both refer to one entry. -/
def zeroesCode : Code where
  words := #[6, 0x10000000, 6, 0x10000000]
  locs := Array.replicate 4 ⟨1, 1⟩
  constants := ⟨[.float ⟨0x8000000000000000⟩]⟩

/-- A type test of the first parameter. -/
def intTest : Program :=
  let loc : Position := ⟨1, 1⟩
  let outcome : Temp := ⟨2, "outcome"⟩
  ⟨[.alloc outcome, .typeIs loc (.var (.fixed ⟨0⟩)) "int" (.temp outcome),
    .ret loc (.var (.temp outcome))]⟩

/-- The code of this test and a search loop after it. -/
def testSearchCode : Code where
  words :=
    #[8, 0, 0x10000000, 2, 6, 2, 4, 0x20000007, 3, 31, 4, 3, 4, 28, 8, 4, 0x10000001, 1, 2, 1, 31,
      9, 4, 0x10000002, 0, 5, 4, 14, 5, 3, 10, 6, 0]
  locs := Array.replicate 33 ⟨1, 1⟩
  constants := ⟨[.str "int", .str "str", .int 1]⟩
  frameSize := 5

theorem recognized_of_lower_intTest :
    (floatReturn 0x8000000000000000).constantResult? = some (.float ⟨0x8000000000000000⟩) ∧
      (((floatReturn 0x8000000000000000).append (floatReturn 0)).lower 0).result = .ok zeroesCode ∧
      zeroesCode.ReturnsConstant (.float ⟨0x8000000000000000⟩) ∧
      intTest.typeTestResult? = some "int" ∧
      ((intTest.append searchLoop).lower 2).result = .ok testSearchCode ∧
      testSearchCode.ReturnsTypeTest 2 "int" := by
  have hzeroes :
      (((floatReturn 0x8000000000000000).append (floatReturn 0)).lower 0).result =
        .ok zeroesCode := by
    decide
  have htest : ((intTest.append searchLoop).lower 2).result = .ok testSearchCode := by decide
  have hconstant := ((recognized_of_lower (floatReturn 0x8000000000000000) (floatReturn 0) 0).1 _
    rfl).2 _ (Or.inr hzeroes)
  have htype := ((recognized_of_lower intTest searchLoop 2).2 "int" rfl).2 _ (Or.inr htest)
  exact ⟨rfl, hzeroes, hconstant, rfl, htest, htype⟩

end Program

end Assembler
