import Assembler.Proofs.Finishing

/-!
# Literals and the pool

To be the same value is an equivalence of literals, which relates different literals only if both
are zeros or both are no number (`Constant.same_iff`). Of all literals with the same value a pool
keeps the first (`Pool.find?_addAll`), so this is what the operand word of a literal refers to in
lowered code, be it that literal or another (`Program.literals_of_lower`).
-/

namespace Assembler

/-! ## Literals of the same value -/

namespace Binary64

theorem isNaN_eq_false {x : Binary64} (h : x.isZero = true) : x.isNaN = false := by
  simp only [isZero, Bool.and_eq_true, beq_iff_eq] at h
  simp [isNaN, h.1]

theorem same_iff {x y : Binary64} :
    x.same y = true ↔
      x = y ∨ x.isZero = true ∧ y.isZero = true ∨ x.isNaN = true ∧ y.isNaN = true := by
  obtain ⟨a⟩ := x
  obtain ⟨b⟩ := y
  simp only [same, Bool.or_eq_true, Bool.and_eq_true, beq_iff_eq, mk.injEq]
  tauto

end Binary64

namespace Constant

variable {c d e : Constant}

/-- Two literals of the same value are equal, unless they are two zeros or two words that are no
number. -/
theorem same_iff :
    c.same d = true ↔
      c = d ∨ ∃ x y, c = .float x ∧ d = .float y ∧
        (x.isZero = true ∧ y.isZero = true ∨ x.isNaN = true ∧ y.isNaN = true) := by
  cases c <;> cases d <;> simp [same, Binary64.same_iff]

theorem same_symm (h : c.same d = true) : d.same c = true := by
  rcases same_iff.1 h with rfl | ⟨x, y, rfl, rfl, hxy⟩
  · exact c.same_refl
  · exact same_iff.2 (Or.inr ⟨y, x, rfl, rfl, hxy.imp And.symm And.symm⟩)

theorem same_trans (h : c.same d = true) (h' : d.same e = true) : c.same e = true := by
  rcases same_iff.1 h with rfl | ⟨x, y, rfl, rfl, hxy⟩
  · exact h'
  rcases same_iff.1 h' with rfl | ⟨y', z, heq, rfl, hyz⟩
  · exact h
  obtain rfl : y = y' := Constant.float.inj heq
  refine same_iff.2 (Or.inr ⟨x, z, rfl, rfl, ?_⟩)
  -- no word is both zero and no number
  rcases hxy with ⟨hx, hy⟩ | ⟨hx, hy⟩ <;> rcases hyz with ⟨hy', hz⟩ | ⟨hy', hz⟩
  · exact Or.inl ⟨hx, hz⟩
  · rw [Binary64.isNaN_eq_false hy] at hy'
    cases hy'
  · rw [Binary64.isNaN_eq_false hy'] at hy
    cases hy
  · exact Or.inr ⟨hx, hz⟩

/-- The same literals have the value of `c` as that of `d`. -/
theorem same_congr (h : c.same d = true) : (fun e : Constant => e.same c) = (·.same d) := by
  funext e
  rw [Bool.eq_iff_iff]
  exact ⟨fun hc => same_trans hc h, fun hd => same_trans hd (same_symm h)⟩

end Constant

/-! ## Entries of pools -/

namespace Pool

theorem indexOf?_eq_none_iff {p : Pool} {c : Constant} :
    p.indexOf? c = none ↔ ∀ e ∈ p.entries, e.same c = false :=
  List.findIdx?_eq_none_iff

/-- The entry of a constant is the first one of its value. -/
theorem getElem?_of_indexOf? {p : Pool} {c : Constant} {i : Nat} (h : p.indexOf? c = some i) :
    p.entries[i]? = p.entries.find? (·.same c) := by
  have h : p.entries.findIdx? (·.same c) = some i := h
  rw [List.find?_eq_bind_findIdx?_getElem?, h]
  rfl

theorem add_of_indexOf?_eq_none {p : Pool} {c : Constant} (h : p.indexOf? c = none) :
    (p.add c).1.entries = p.entries ++ [c] := by
  rw [add, h]

theorem add_of_same {p : Pool} {c e : Constant} (he : e ∈ p.entries) (h : e.same c = true) :
    (p.add c).1 = p := by
  unfold add
  split
  · rfl
  next hnone =>
    rw [indexOf?_eq_none_iff.1 hnone e he] at h
    cases h

theorem find?_add (p : Pool) (c d : Constant) :
    (p.add c).1.entries.find? (·.same d) = (p.entries ++ [c]).find? (·.same d) := by
  cases h : p.indexOf? c with
  | none => rw [add_of_indexOf?_eq_none h]
  | some i =>
    obtain ⟨e, he, hsame⟩ := exists_same_of_indexOf? h
    have hmem := List.mem_of_getElem? he
    rw [add_of_same hmem hsame, List.find?_append]
    cases hcd : c.same d with
    | false => simp [hcd]
    | true =>
      -- the entry that `c` shares has the value of `d` too
      have hsome : (p.entries.find? (·.same d)).isSome :=
        List.find?_isSome.2 ⟨e, hmem, Constant.same_trans hsame hcd⟩
      rw [Option.or_of_isSome hsome]

/-- Of all constants with one value a pool keeps the first. -/
theorem find?_addAll (p : Pool) (cs : List Constant) (d : Constant) :
    (p.addAll cs).entries.find? (·.same d) = (p.entries ++ cs).find? (·.same d) := by
  induction cs generalizing p with
  | nil => rw [addAll_nil, List.append_nil]
  | cons c cs ih =>
    rw [addAll_cons, ih, List.find?_append, find?_add, ← List.find?_append, List.append_assoc]
    rfl

/-- What is added to a pool is what a pool of its own would hold of it, less what is there. -/
theorem entries_addAll (p : Pool) (cs : List Constant) :
    (p.addAll cs).entries =
      p.entries ++ (addAll {} cs).entries.filter fun c => !p.entries.any (·.same c) := by
  induction cs using List.reverseRecOn with
  | nil => simp
  | append_singleton cs c ih =>
    have hjoint : (p.addAll (cs ++ [c])) = ((p.addAll cs).add c).1 := addAll_append p cs [c]
    have hown : (addAll {} (cs ++ [c])) = ((addAll {} cs).add c).1 := addAll_append {} cs [c]
    rw [hjoint, hown]
    by_cases hp : ∃ e ∈ p.entries, e.same c = true
    · -- there already: whether it is new on its own side makes no difference
      obtain ⟨e, he, hsame⟩ := hp
      have hold : e ∈ (p.addAll cs).entries := (p.prefix_addAll cs).subset he
      rw [add_of_same hold hsame, ih]
      cases hown : (addAll {} cs).indexOf? c with
      | none =>
        have hany : p.entries.any (·.same c) = true := List.any_eq_true.2 ⟨e, he, hsame⟩
        rw [add_of_indexOf?_eq_none hown, List.filter_append]
        simp [hany]
      | some i =>
        obtain ⟨d, hd, hsame'⟩ := exists_same_of_indexOf? hown
        rw [add_of_same (List.mem_of_getElem? hd) hsame']
    · simp only [not_exists, not_and, Bool.not_eq_true] at hp
      cases hown : (addAll {} cs).indexOf? c with
      | none =>
        have hnone : (p.addAll cs).indexOf? c = none := by
          rw [indexOf?_eq_none_iff, ih]
          intro e he
          rcases List.mem_append.1 he with he | he
          · exact hp e he
          · exact indexOf?_eq_none_iff.1 hown e (List.mem_filter.1 he).1
        have hany : p.entries.any (·.same c) = false := by
          simpa [List.any_eq_false] using hp
        rw [add_of_indexOf?_eq_none hnone, add_of_indexOf?_eq_none hown, ih, List.filter_append]
        simp [hany]
      | some i =>
        obtain ⟨d, hd, hsame⟩ := exists_same_of_indexOf? hown
        have hmem := List.mem_of_getElem? hd
        have hkept : d ∈ (p.addAll cs).entries := by
          rw [ih]
          refine List.mem_append_right _ (List.mem_filter.2 ⟨hmem, ?_⟩)
          simp only [Bool.not_eq_true', List.any_eq_false, Bool.not_eq_true]
          intro e he
          by_contra hne
          rw [Bool.not_eq_false] at hne
          exact Bool.false_ne_true ((hp e he).symm.trans (Constant.same_trans hne hsame))
        rw [add_of_same hkept hsame, add_of_same hmem hsame, ih]

end Pool

/-! ## Literals of a program -/

/-- The literals among the operands of a program, in order. -/
def literals (is : List Instr) : List Constant :=
  is.flatMap Instr.constants

/-- Operand word number `m` of instruction number `k` is for the literal `c`. -/
def LiteralAt (is : List Instr) (k m : Nat) (c : Constant) : Prop :=
  ∃ i, is[k]? = some i ∧ i.roles[m]? = some (.slot (.const c))

theorem mem_literals_iff {is : List Instr} {c : Constant} :
    c ∈ literals is ↔ ∃ k m, LiteralAt is k m c := by
  simp only [literals, List.mem_flatMap, Instr.constants, List.mem_filterMap]
  constructor
  · rintro ⟨i, hi, role, hrole, hc⟩
    obtain ⟨k, hk⟩ := List.getElem?_of_mem hi
    obtain ⟨m, hm⟩ := List.getElem?_of_mem hrole
    refine ⟨k, m, i, hk, ?_⟩
    cases role with
    | slot s =>
      cases s with
      | const d =>
        obtain rfl : d = c := Option.some.inj hc
        exact hm
      | _ => cases hc
    | _ => cases hc
  · rintro ⟨k, m, i, hk, hm⟩
    exact ⟨i, List.mem_of_getElem? hk, _, List.mem_of_getElem? hm, rfl⟩

/-- The entry of the pool that an operand word refers to. -/
def Code.pooled? (c : Code) (w : UInt32) : Option Constant :=
  (Operand.decode? w).bind fun o => if o.kind = .const then c.constant? o.index else none

theorem Code.pooled?_encode (c : Code) {o : Operand} (h : o.kind = .const) :
    c.pooled? o.encode = c.constants.entries[o.index.toNat]? := by
  rw [pooled?, o.decode?_encode, Option.bind_some, if_pos h]
  rfl

section Word

variable {n : UInt32} {f : Frame} {code : Code} {c : Constant} {w : UInt32}

/-- The word for a literal refers to its entry in the pool. -/
theorem Slot.Word.exists_indexOf? (h : (Slot.const c).Word n f code.constants w) :
    ∃ index, code.constants.indexOf? c = some index ∧
      code.pooled? w = code.constants.entries[index]? := by
  obtain ⟨o, hplace, rfl⟩ := h
  obtain ⟨index, hindex, heq⟩ := Option.map_eq_some_iff.1 hplace
  obtain ⟨hkind, rfl⟩ := Prod.mk.inj heq
  exact ⟨_, hindex, Code.pooled?_encode code hkind.symm⟩

theorem Slot.Word.pooled?_eq (h : (Slot.const c).Word n f code.constants w) :
    code.pooled? w = code.constants.entries.find? (·.same c) := by
  obtain ⟨index, hindex, heq⟩ := h.exists_indexOf?
  rw [heq, Pool.getElem?_of_indexOf? hindex]

theorem Slot.Word.exists_pooled? (h : (Slot.const c).Word n f code.constants w) :
    ∃ e, code.pooled? w = some e ∧ e.same c = true := by
  obtain ⟨index, hindex, heq⟩ := h.exists_indexOf?
  rw [heq]
  exact Pool.exists_same_of_indexOf? hindex

end Word

namespace Program

/-- Operand word number `m` of instruction number `k`, which is for the literal `c`, refers to the
entry `e` of the pool. -/
def EntryAt (p : Program) (code : Code) (k m : Nat) (c e : Constant) : Prop :=
  LiteralAt p.instrs k m c ∧
    ∃ w, code.wordAt? (offsetOf p.instrs k + 1 + m) = some w ∧ code.pooled? w = some e

/-- Every literal is the entry that its operand word refers to. -/
def KeepsLiterals (p : Program) (code : Code) : Prop :=
  ∀ k m c e, p.EntryAt code k m c e → e = c

variable {p : Program} {n : UInt32} {code : Code} {k m : Nat} {c e : Constant}

/-- The operand word of a literal refers to the first literal of the program with its value. -/
theorem entryAt_iff (h : (p.lower n).result = .ok code) (hc : LiteralAt p.instrs k m c) :
    p.EntryAt code k m c e ↔ (literals p.instrs).find? (·.same c) = some e := by
  have hfirst : code.constants.entries.find? (·.same c) = (literals p.instrs).find? (·.same c) := by
    rw [constants_of_lower h]
    exact Pool.find?_addAll {} _ c
  obtain ⟨i, hk, hm⟩ := hc
  obtain ⟨w, hw, hword⟩ := (image_of_lower h k).operand hk hm
  rw [Role.Means, ← constants_of_lower h] at hword
  rw [← hfirst, ← hword.pooled?_eq]
  constructor
  · rintro ⟨-, w', hw', he⟩
    rw [hw, Option.some.injEq] at hw'
    rwa [hw']
  · exact fun he => ⟨⟨i, hk, hm⟩, w, hw, he⟩

theorem EntryAt.find?_eq (h : (p.lower n).result = .ok code) (he : p.EntryAt code k m c e) :
    (literals p.instrs).find? (·.same c) = some e ∧ e.same c = true := by
  have hfind := (entryAt_iff h he.1).1 he
  have hsame := List.find?_some hfind
  exact ⟨hfind, hsame⟩

/-- Every operand word of a literal refers to an entry. -/
theorem exists_entryAt (h : (p.lower n).result = .ok code) (hc : LiteralAt p.instrs k m c) :
    ∃ e, p.EntryAt code k m c e := by
  have hmem : c ∈ literals p.instrs := mem_literals_iff.2 ⟨k, m, hc⟩
  have hsome : ((literals p.instrs).find? (·.same c)).isSome :=
    List.find?_isSome.2 ⟨c, hmem, c.same_refl⟩
  obtain ⟨e, he⟩ := Option.isSome_iff_exists.1 hsome
  exact ⟨e, (entryAt_iff h hc).2 he⟩

/-- The operand word of a literal refers to the first literal of the program with its value. So all
literals are kept as they are iff no two of them differ and have the same value, which only zeros of
different sign and different words that are no number do. -/
theorem literals_of_lower (h : (p.lower n).result = .ok code) :
    (∀ k m c, LiteralAt p.instrs k m c → ∃ e, p.EntryAt code k m c e) ∧
      (∀ k m c e, p.EntryAt code k m c e →
        (literals p.instrs).find? (·.same c) = some e ∧
          (e = c ∨ ∃ x y, e = .float x ∧ c = .float y ∧
            (x.isZero = true ∧ y.isZero = true ∨ x.isNaN = true ∧ y.isNaN = true))) ∧
      (p.KeepsLiterals code ↔
        ∀ c ∈ literals p.instrs, ∀ d ∈ literals p.instrs, c.same d = true → c = d) := by
  refine ⟨fun k m c => exists_entryAt h, fun k m c e he => ?_, fun hkeeps c hc d hd hsame => ?_,
    fun hapart k m c e he => ?_⟩
  · obtain ⟨hfind, hsame⟩ := he.find?_eq h
    exact ⟨hfind, Constant.same_iff.1 hsame⟩
  · obtain ⟨k, m, hc⟩ := mem_literals_iff.1 hc
    obtain ⟨l, j, hd⟩ := mem_literals_iff.1 hd
    obtain ⟨e, he⟩ := exists_entryAt h hc
    have he' : p.EntryAt code l j d e := by
      rw [entryAt_iff h hd, ← Constant.same_congr hsame]
      exact (entryAt_iff h hc).1 he
    exact (hkeeps k m c e he).symm.trans (hkeeps l j d e he')
  · obtain ⟨hfind, hsame⟩ := he.find?_eq h
    exact hapart e (List.mem_of_find?_eq_some hfind) c (mem_literals_iff.2 ⟨k, m, he.1⟩) hsame

end Program

/-- A program that names both zeros. -/
def signedZeros : Program :=
  let loc : Position := ⟨1, 1⟩
  ⟨[.ret loc (.const (.float ⟨0⟩)), .ret loc (.const (.float ⟨0x8000000000000000⟩))]⟩

/-- Its code, which refers to one zero only. -/
def signedZerosCode : Code where
  words := #[6, 0x10000000, 6, 0x10000000]
  locs := Array.replicate 4 ⟨1, 1⟩
  constants := ⟨[.float ⟨0⟩]⟩
  frameSize := 0

theorem lower_signedZeros : (signedZeros.lower 0).result = .ok signedZerosCode := by
  decide

namespace Program

theorem literals_of_lower_signedZeros :
    (signedZeros.lower 0).result = .ok signedZerosCode ∧
      ∃ e, signedZeros.EntryAt signedZerosCode 1 0 (.float ⟨0x8000000000000000⟩) e ∧
        e = .float ⟨0⟩ := by
  obtain ⟨hexists, hfirst, -⟩ := literals_of_lower lower_signedZeros
  obtain ⟨e, he⟩ := hexists 1 0 (.float ⟨0x8000000000000000⟩) ⟨_, rfl, rfl⟩
  obtain ⟨hfind, -⟩ := hfirst _ _ _ _ he
  exact ⟨lower_signedZeros, e, he, (Option.some.inj hfind).symm⟩

/-- The literals of a program are not always kept: a negative zero is lost after a positive one. -/
theorem not_keepsLiterals_signedZeros :
    (signedZeros.lower 0).result = .ok signedZerosCode ∧
      ¬ signedZeros.KeepsLiterals signedZerosCode := by
  refine ⟨lower_signedZeros, fun hkeeps => ?_⟩
  have hentry : signedZeros.EntryAt signedZerosCode 1 0 (.float ⟨0x8000000000000000⟩)
      (.float ⟨0⟩) :=
    ⟨⟨_, rfl, rfl⟩, 0x10000000, rfl, rfl⟩
  have hne : Constant.float ⟨0⟩ ≠ .float ⟨0x8000000000000000⟩ := by decide
  exact hne (hkeeps _ _ _ _ hentry)

end Program

end Assembler
