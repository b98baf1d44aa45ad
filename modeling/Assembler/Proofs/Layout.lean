import Mathlib.Algebra.GroupWithZero.Nat
import Mathlib.Data.List.Basic
import Assembler.Program

/-!
# The layout of code

Every instruction of a program has a fixed width, so where its code stands is known before any word
is written: `offsetOf is k` is the sum of the widths of the instructions before number `k`. The
words after the opcode are told apart by their role (`Instr.roles`), and the word for a role is at
one offset only (`offsetOf_operand_inj`).

What a walk over a program collects from the number, the offset and the text of each instruction is
a `scan`.
-/

namespace Assembler

/-! ## Widths and roles -/

/-- What an operand word of an instruction says: a storage place, a given word, or an address. The
words of a loop refer to its other end: its end address, its variable, and the start of its body. -/
inductive Role where
  | slot (s : Slot)
  | word (w : UInt32)
  | target (label : Label)
  | loopEnd
  | loopItem
  | loopStart
  deriving DecidableEq

/-- The role of an argument. -/
def Arg.role : Arg → Role
  | .input s => .slot s
  | .output v => .slot (.var v)
  | .imm w => .word w
  | .const c => .slot (.const c)

namespace Instr

/-- The opcode of the code of an instruction, if it has code. -/
def opcode? : Instr → Option Opcode
  | copy .. => some .copy
  | alloc _ | release _ | place _ => none
  | branch .. => some .branch
  | branchIf _ _ test _ => some test.opcode
  | typeIs .. => some .typeIs
  | ret .. => some .ret
  | forInit .. => some .forInit
  | forClose _ => some .forNext
  | op _ opcode _ => some opcode

/-- The roles of the operand words, in order. -/
def roles : Instr → List Role
  | copy _ src dest => [.slot src, .slot (.var dest)]
  | alloc _ | release _ | place _ => []
  | branch _ label => [.target label]
  | branchIf _ cond _ label => [.slot (.var cond), .target label]
  | typeIs _ expr type result => [.slot expr, .slot (.const (.str type)), .slot (.var result)]
  | ret _ value => [.slot value]
  | forInit _ collection item => [.slot collection, .slot (.var item), .loopEnd]
  | forClose _ => [.loopItem, .loopStart]
  | op _ _ args => args.map Arg.role

/-- The position that the words of code carry. -/
def loc : Instr → Position
  | copy loc .. | branch loc .. | branchIf loc .. | typeIs loc .. | ret loc .. | forInit loc ..
  | forClose loc | op loc .. => loc
  | alloc _ | release _ | place _ => .unknown

/-- The number of words of code. -/
def width (i : Instr) : Nat :=
  i.opcode?.elim 0 Opcode.width

/-- The label that a branch jumps to. -/
def target? : Instr → Option Label
  | branch _ label | branchIf _ _ _ label => some label
  | _ => none

/-- A plain operation has an opcode of its own and as many arguments as the opcode takes. -/
def Formed : Instr → Prop
  | op _ opcode args => opcode.isReserved = false ∧ args.length = opcode.operandCount
  | _ => True

theorem roles_eq_nil {i : Instr} (h : i.opcode? = none) : i.roles = [] := by
  cases i <;> simp_all [opcode?, roles]

theorem width_of_opcode? {i : Instr} {op : Opcode} (h : i.opcode? = some op) :
    i.width = op.width := by
  rw [width, h]
  rfl

theorem width_eq_zero {i : Instr} (h : i.opcode? = none) : i.width = 0 := by
  rw [width, h]
  rfl

theorem length_roles {i : Instr} {op : Opcode} (h : i.opcode? = some op) (hi : i.Formed) :
    i.roles.length = op.operandCount := by
  cases i with
  | alloc t => cases h
  | release t => cases h
  | place label => cases h
  | branchIf loc cond test label =>
    cases h
    cases test <;> rfl
  | op loc opcode args =>
    cases h
    simpa [roles] using hi.2
  | copy | branch | typeIs | ret | forInit | forClose =>
    cases h
    rfl

theorem width_eq {i : Instr} (hi : i.Formed) :
    i.width = if i.opcode?.isSome then i.roles.length + 1 else 0 := by
  unfold width
  cases h : i.opcode? with
  | none => rfl
  | some op =>
    rw [length_roles h hi]
    exact Nat.add_comm 1 _

theorem target?_eq_some_iff {i : Instr} {label : Label} :
    i.target? = some label ↔ .target label ∈ i.roles := by
  cases i with
  | branch loc label' => simp [target?, roles, eq_comm]
  | branchIf loc cond test label' => simp [target?, roles, eq_comm]
  | op loc opcode args =>
    refine ⟨nofun, fun h => ?_⟩
    obtain ⟨a, -, ha⟩ := List.mem_map.1 h
    cases a <;> cases ha
  | _ => simp [target?, roles]

end Instr

/-! ## Offsets -/

/-- The number of words of the code of a list of instructions. -/
def span (is : List Instr) : Nat :=
  (is.map Instr.width).sum

/-- The offset of the code of instruction number `k`. -/
def offsetOf (is : List Instr) (k : Nat) : Nat :=
  span (is.take k)

@[simp] theorem span_nil : span [] = 0 := rfl

@[simp] theorem span_cons (i : Instr) (is : List Instr) : span (i :: is) = i.width + span is := by
  simp [span]

@[simp] theorem span_append (is js : List Instr) : span (is ++ js) = span is + span js := by
  simp [span]

@[simp] theorem offsetOf_zero (is : List Instr) : offsetOf is 0 = 0 := rfl

@[simp] theorem offsetOf_length (is : List Instr) : offsetOf is is.length = span is := by
  simp [offsetOf]

@[simp] theorem offsetOf_cons_succ (i : Instr) (is : List Instr) (k : Nat) :
    offsetOf (i :: is) (k + 1) = i.width + offsetOf is k := by
  simp [offsetOf]

theorem getElem?_append_singleton_cases {is : List Instr} {i j : Instr} {k : Nat}
    (h : (is ++ [i])[k]? = some j) : k < is.length ∧ is[k]? = some j ∨ k = is.length ∧ j = i := by
  rcases Nat.lt_trichotomy k is.length with hlt | rfl | hgt
  · rw [List.getElem?_append_left hlt] at h
    exact Or.inl ⟨hlt, h⟩
  · exact Or.inr ⟨rfl, by simpa using h.symm⟩
  · have := (List.getElem?_eq_some_iff.1 h).1
    simp at this
    omega

theorem getElem?_append_length_add (is js : List Instr) (k : Nat) :
    (is ++ js)[is.length + k]? = js[k]? := by
  rw [List.getElem?_append_right (Nat.le_add_right _ _), Nat.add_sub_cancel_left]

theorem drop_eq_cons_iff {is rest : List Instr} {i : Instr} {k : Nat} :
    is.drop k = i :: rest ↔ is[k]? = some i ∧ is.drop (k + 1) = rest := by
  constructor
  · intro h
    rw [← Nat.add_zero k, ← List.getElem?_drop, h, Nat.add_zero, ← List.drop_drop, h]
    exact ⟨rfl, rfl⟩
  · rintro ⟨hk, rfl⟩
    obtain ⟨hlt, rfl⟩ := List.getElem?_eq_some_iff.1 hk
    exact List.drop_eq_getElem_cons hlt

theorem offsetOf_append {is : List Instr} (js : List Instr) {k : Nat} (h : k ≤ is.length) :
    offsetOf (is ++ js) k = offsetOf is k := by
  rw [offsetOf, List.take_append_of_le_length h, offsetOf]

theorem offsetOf_append_length (is js : List Instr) : offsetOf (is ++ js) is.length = span is := by
  rw [offsetOf_append js (Nat.le_refl _), offsetOf_length]

theorem offsetOf_append_right (is js : List Instr) (k : Nat) :
    offsetOf (is ++ js) (is.length + k) = span is + offsetOf js k := by
  rw [offsetOf, List.take_length_add_append, span_append, offsetOf]

theorem offsetOf_succ {is : List Instr} {k : Nat} {i : Instr} (h : is[k]? = some i) :
    offsetOf is (k + 1) = offsetOf is k + i.width := by
  rw [offsetOf, List.take_add_one, h]
  simp [offsetOf]

theorem offsetOf_mono (is : List Instr) {k l : Nat} (h : k ≤ l) :
    offsetOf is k ≤ offsetOf is l := by
  have : is.take l = is.take k ++ (is.drop k).take (l - k) := by
    rw [← List.take_add]
    congr 1
    omega
  rw [offsetOf, offsetOf, this, span_append]
  exact Nat.le_add_right _ _

theorem offsetOf_le_span (is : List Instr) (k : Nat) : offsetOf is k ≤ span is := by
  by_cases h : k ≤ is.length
  · rw [← offsetOf_length is]
    exact offsetOf_mono is h
  · exact Nat.le_of_eq (by rw [offsetOf, List.take_of_length_le (by omega)])

/-- The code of an instruction ends before that of any later one begins. -/
theorem offsetOf_add_width_le {is : List Instr} {k l : Nat} {i : Instr} (h : is[k]? = some i)
    (hkl : k < l) : offsetOf is k + i.width ≤ offsetOf is l := by
  rw [← offsetOf_succ h]
  exact offsetOf_mono is hkl

/-- Every offset is that of the next instruction that has code, or the end of all code. -/
theorem offsetOf_cases (is : List Instr) (k : Nat) :
    offsetOf is k = span is ∨
      ∃ l i, is[l]? = some i ∧ i.opcode?.isSome ∧ offsetOf is l = offsetOf is k := by
  induction hdrop : is.drop k generalizing k with
  | nil => exact Or.inl (by rw [offsetOf, List.take_of_length_le (List.drop_eq_nil_iff.1 hdrop)])
  | cons i rest ih =>
    obtain ⟨hk, hrest⟩ := drop_eq_cons_iff.1 hdrop
    cases hop : i.opcode? with
    | none =>
      have hnext := ih (k + 1) hrest
      rwa [offsetOf_succ hk, Instr.width_eq_zero hop] at hnext
    | some op => exact Or.inr ⟨k, i, hk, by rw [hop]; rfl, rfl⟩

/-- The word for a role lies in the code of its instruction. -/
theorem offsetOf_operand_lt (is : List Instr) (k : Nat) {m : Nat} {i : Instr} {role : Role}
    (hi : i.Formed) (hm : i.roles[m]? = some role) :
    offsetOf is k + 1 + m < offsetOf is k + i.width := by
  obtain ⟨hlt, -⟩ := List.getElem?_eq_some_iff.1 hm
  have hop : i.opcode?.isSome := by
    cases hop : i.opcode? with
    | none =>
      rw [Instr.roles_eq_nil hop] at hlt
      exact absurd hlt (Nat.not_lt_zero _)
    | some op => rfl
  rw [Instr.width_eq hi, if_pos hop]
  omega

/-- The word for a role is no opcode. -/
theorem offsetOf_operand_ne {is : List Instr} {k m : Nat} {i : Instr} {role : Role}
    (hk : is[k]? = some i) (hi : i.Formed) (hm : i.roles[m]? = some role) (l : Nat) :
    offsetOf is k + 1 + m ≠ offsetOf is l := by
  have hlt := offsetOf_operand_lt is k hi hm
  rcases Nat.lt_or_ge k l with hkl | hlk
  · have := offsetOf_add_width_le hk hkl
    omega
  · have := offsetOf_mono is hlk
    omega

/-- Two words for roles at the same offset are one word of one instruction. -/
theorem offsetOf_operand_inj {is : List Instr} {k l m m' : Nat} {i j : Instr} {r r' : Role}
    (hk : is[k]? = some i) (hi : i.Formed) (hm : i.roles[m]? = some r)
    (hl : is[l]? = some j) (hj : j.Formed) (hm' : j.roles[m']? = some r')
    (h : offsetOf is k + 1 + m = offsetOf is l + 1 + m') : k = l ∧ m = m' := by
  have hlt := offsetOf_operand_lt is k hi hm
  have hlt' := offsetOf_operand_lt is l hj hm'
  rcases Nat.lt_trichotomy k l with hkl | rfl | hkl
  · have := offsetOf_add_width_le hk hkl
    omega
  · exact ⟨rfl, by omega⟩
  · have := offsetOf_add_width_le hl hkl
    omega

/-- Every word of code is an opcode or is for a role. -/
theorem exists_of_lt_span {is : List Instr} (hformed : ∀ i ∈ is, i.Formed) {offset : Nat}
    (h : offset < span is) :
    ∃ k i op, is[k]? = some i ∧ i.opcode? = some op ∧
      (offset = offsetOf is k ∨
        ∃ m role, i.roles[m]? = some role ∧ offset = offsetOf is k + 1 + m) := by
  induction is generalizing offset with
  | nil => exact absurd h (Nat.not_lt_zero _)
  | cons i is ih =>
    rw [span_cons] at h
    by_cases hlt : offset < i.width
    · -- the word is in the code of the first instruction
      have hwidth := Instr.width_eq (hformed i List.mem_cons_self)
      cases hop : i.opcode? with
      | none =>
        rw [Instr.width_eq_zero hop] at hlt
        exact absurd hlt (Nat.not_lt_zero _)
      | some op =>
        rw [hop, Option.isSome_some, if_pos rfl] at hwidth
        refine ⟨0, i, op, rfl, hop, ?_⟩
        cases offset with
        | zero => exact Or.inl rfl
        | succ m =>
          have hm : m < i.roles.length := by omega
          exact Or.inr ⟨m, _, List.getElem?_eq_getElem hm, by rw [offsetOf_zero]; omega⟩
    · obtain ⟨k, j, op, hk, hop, hcases⟩ :=
        @ih (fun j hj => hformed j (List.mem_cons_of_mem _ hj)) (offset - i.width) (by omega)
      refine ⟨k + 1, j, op, hk, hop, ?_⟩
      rw [offsetOf_cons_succ]
      rcases hcases with heq | ⟨m, role, hm, heq⟩
      · exact Or.inl (by omega)
      · exact Or.inr ⟨m, role, hm, by omega⟩

/-! ## Scans -/

section Scan

variable {α : Type} (g : Nat → Nat → Instr → List α)

/-- What `g` gives for the instructions, the first of which has number `k` and offset `off`. -/
def scan : Nat → Nat → List Instr → List α
  | _, _, [] => []
  | k, off, i :: is => g k off i ++ scan (k + 1) (off + i.width) is

theorem scan_append (k off : Nat) (is js : List Instr) :
    scan g k off (is ++ js) = scan g k off is ++ scan g (k + is.length) (off + span is) js := by
  induction is generalizing k off with
  | nil => rfl
  | cons i is ih =>
    simp only [List.cons_append, scan, ih, List.append_assoc, List.length_cons, span_cons]
    congr 3 <;> omega

theorem mem_scan {k off : Nat} {is : List Instr} {x : α} :
    x ∈ scan g k off is ↔
      ∃ m i, is[m]? = some i ∧ x ∈ g (k + m) (off + offsetOf is m) i := by
  induction is generalizing k off with
  | nil => simp [scan]
  | cons i is ih =>
    have hnumber (m : Nat) : k + (m + 1) = k + 1 + m := by omega
    have hoffset (m : Nat) : off + offsetOf (i :: is) (m + 1) = off + i.width + offsetOf is m := by
      rw [offsetOf_cons_succ, Nat.add_assoc]
    rw [scan, List.mem_append, ih]
    constructor
    · rintro (h | ⟨m, j, hm, hx⟩)
      · exact ⟨0, i, rfl, h⟩
      · exact ⟨m + 1, j, hm, by rwa [hnumber, hoffset]⟩
    · rintro ⟨_ | m, j, hm, hx⟩
      · cases hm
        exact Or.inl hx
      · exact Or.inr ⟨m, j, hm, by rwa [hnumber, hoffset] at hx⟩

end Scan

end Assembler
