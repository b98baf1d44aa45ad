import Assembler.Proofs.Constants

/-!
# The pool of lowered code

A pool never holds two entries of one value (`Pool.distinct_addAll`), and it holds the constants
added to it in the order of their first occurrences (`Pool.entries_addAll_eq_eraseDupsBy`). In
lowered code these are the literals of the program. The operand word of each gives the number of its
entry, so every entry is referred to, and no operand word refers to an entry that is not there
(`Program.pool_of_lower`).
-/

namespace Assembler

/-! ## First occurrences -/

namespace Pool

variable {p : Pool} {c e : Constant}

/-- No two entries have the same value. -/
def Distinct (p : Pool) : Prop :=
  p.entries.Pairwise fun d e => d.same e = false

theorem Distinct.add (h : p.Distinct) (c : Constant) : (p.add c).1.Distinct := by
  cases hindex : p.indexOf? c with
  | none =>
    have hnew := indexOf?_eq_none_iff.1 hindex
    unfold Distinct
    rw [add_of_indexOf?_eq_none hindex, List.pairwise_append]
    exact ⟨h, List.pairwise_singleton _ c, fun d hd e he => List.mem_singleton.1 he ▸ hnew d hd⟩
  | some i =>
    obtain ⟨e, he, hsame⟩ := exists_same_of_indexOf? hindex
    rwa [add_of_same (List.mem_of_getElem? he) hsame]

theorem distinct_addAll (h : p.Distinct) (cs : List Constant) : (p.addAll cs).Distinct := by
  induction cs generalizing p with
  | nil => exact h
  | cons c cs ih => exact ih (h.add c)

/-- An entry is the first one of its value, as there is no other. -/
theorem Distinct.indexOf?_eq (h : p.Distinct) {i : Nat} (he : p.entries[i]? = some e) :
    p.indexOf? e = some i := by
  obtain ⟨hlt, rfl⟩ := List.getElem?_eq_some_iff.1 he
  refine List.findIdx?_eq_some_iff_getElem.2 ⟨hlt, Constant.same_refl _, fun j hj => ?_⟩
  rw [List.pairwise_iff_getElem.1 h j i (Nat.lt_trans hj hlt) hlt hj]
  exact Bool.false_ne_true

/-- A pool takes in constants in the order in which their values first occur. -/
theorem entries_addAll_eq_loop (p : Pool) (cs : List Constant) :
    (p.addAll cs).entries = List.eraseDupsBy.loop Constant.same cs p.entries.reverse := by
  induction cs generalizing p with
  | nil => rw [addAll_nil, List.eraseDupsBy.loop, List.reverse_reverse]
  | cons c cs ih =>
    rw [addAll_cons, ih, List.eraseDupsBy.loop]
    cases hany : p.entries.reverse.any c.same with
    | true =>
      obtain ⟨e, he, hsame⟩ := List.any_eq_true.1 hany
      rw [add_of_same (List.mem_reverse.1 he) (Constant.same_symm hsame)]
    | false =>
      have hnew : p.indexOf? c = none := by
        rw [indexOf?_eq_none_iff]
        intro e he
        by_contra hne
        rw [Bool.not_eq_false] at hne
        have hnot := List.any_eq_false.1 hany e (List.mem_reverse.2 he)
        exact hnot (Constant.same_symm hne)
      rw [add_of_indexOf?_eq_none hnew, List.reverse_append]
      rfl

theorem entries_addAll_eq_eraseDupsBy (cs : List Constant) :
    (addAll {} cs).entries = cs.eraseDupsBy Constant.same :=
  entries_addAll_eq_loop {} cs

/-- Every entry of a pool is one of the constants that were added to it. -/
theorem mem_of_getElem?_addAll {cs : List Constant} {i : Nat}
    (he : (addAll {} cs).entries[i]? = some e) : e ∈ cs := by
  have hdistinct : (addAll {} cs).Distinct := distinct_addAll List.Pairwise.nil cs
  rw [getElem?_of_indexOf? (hdistinct.indexOf?_eq he), find?_addAll] at he
  exact List.mem_of_find?_eq_some he

end Pool

/-! ## Operand words -/

/-- The role is that of a slot, and its word an operand. -/
def Role.isStorage : Role → Bool
  | slot _ | loopItem => true
  | _ => false

/-- Operand word number `m` of instruction number `k` is for a slot. -/
def StorageAt (is : List Instr) (k m : Nat) : Prop :=
  ∃ i role, is[k]? = some i ∧ i.roles[m]? = some role ∧ role.isStorage = true

/-- An operand word that refers to the pool is for a constant. -/
theorem Slot.Word.eq_const {n : UInt32} {f : Frame} {pool : Pool} {s : Slot} {o : Operand}
    (h : s.Word n f pool o.encode) (hkind : o.kind = .const) : ∃ c, s = .const c := by
  obtain ⟨o', hplace, hencode⟩ := h
  rw [← Operand.encode_injective hencode, hkind] at hplace
  cases s with
  | const c => exact ⟨c, rfl⟩
  | var v =>
    obtain ⟨index, -, heq⟩ := Option.map_eq_some_iff.1 hplace
    cases congrArg Prod.fst heq
  | _ => cases congrArg Prod.fst (Option.some.inj hplace)

namespace Program

/-- Operand word number `m` of instruction number `k` refers to entry number `index` of the pool. -/
def RefersTo (p : Program) (code : Code) (k m : Nat) (index : UInt32) : Prop :=
  ∃ o : Operand, code.wordAt? (offsetOf p.instrs k + 1 + m) = some o.encode ∧ o.kind = .const ∧
    o.index = index

variable {p : Program} {n : UInt32} {code : Code} {k m : Nat} {c : Constant} {index : UInt32}

theorem RefersTo.unique {index' : UInt32} (h : p.RefersTo code k m index)
    (h' : p.RefersTo code k m index') : index = index' := by
  obtain ⟨o, hw, -, rfl⟩ := h
  obtain ⟨o', hw', -, rfl⟩ := h'
  rw [Operand.encode_injective (Option.some.inj (hw.symm.trans hw'))]

/-- The operand word of a literal refers to the entry of its value. -/
theorem exists_refersTo (h : (p.lower n).result = .ok code) (hc : LiteralAt p.instrs k m c) :
    ∃ index, p.RefersTo code k m index ∧ code.constants.indexOf? c = some index.toNat := by
  obtain ⟨i, hk, hm⟩ := hc
  obtain ⟨w, hw, o, hplace, rfl⟩ := (image_of_lower h k).operand hk hm
  obtain ⟨index, hindex, heq⟩ := Option.map_eq_some_iff.1 hplace
  obtain ⟨hkind, rfl⟩ := Prod.mk.inj heq
  rw [← constants_of_lower h] at hindex
  exact ⟨o.index, ⟨o, hw, hkind.symm, rfl⟩, hindex⟩

/-- Only the operand word of a literal refers to an entry. -/
theorem RefersTo.exists_literalAt (hindex : p.RefersTo code k m index)
    (h : (p.lower n).result = .ok code) (hstorage : StorageAt p.instrs k m) :
    ∃ c, LiteralAt p.instrs k m c := by
  obtain ⟨i, role, hk, hm, hrole⟩ := hstorage
  obtain ⟨o, hw, hkind, -⟩ := hindex
  obtain ⟨w, hw', hmeans⟩ := (image_of_lower h k).operand hk hm
  obtain rfl : o.encode = w := Option.some.inj (hw.symm.trans hw')
  cases role with
  | slot s =>
    obtain ⟨c, rfl⟩ := Slot.Word.eq_const hmeans hkind
    exact ⟨c, i, hk, hm⟩
  | loopItem =>
    obtain ⟨a, loc, collection, item, -, -, hword⟩ := hmeans
    obtain ⟨c, hitem⟩ := hword.eq_const hkind
    cases hitem
  | _ => cases hrole

/-- Every entry is referred to by an operand word. -/
theorem exists_refersTo_of_lt (h : (p.lower n).result = .ok code) {i : Nat}
    (hi : i < code.constants.size) :
    ∃ k m c index, LiteralAt p.instrs k m c ∧ p.RefersTo code k m index ∧ index.toNat = i := by
  obtain ⟨e, he⟩ : ∃ e, code.constants.entries[i]? = some e := ⟨_, List.getElem?_eq_getElem hi⟩
  have hdistinct : code.constants.Distinct := by
    rw [constants_of_lower h]
    exact Pool.distinct_addAll List.Pairwise.nil _
  have hmem : e ∈ literals p.instrs := by
    rw [constants_of_lower h] at he
    exact Pool.mem_of_getElem?_addAll he
  obtain ⟨k, m, hc⟩ := mem_literals_iff.1 hmem
  obtain ⟨index, hrefers, hindex⟩ := exists_refersTo h hc
  rw [hdistinct.indexOf?_eq he, Option.some.injEq] at hindex
  exact ⟨k, m, e, index, hc, hrefers, hindex.symm⟩

/-- The pool of lowered code holds the literals of the program in the order in which their values
first occur, and each value once. The operand word of a literal refers to the entry of its value,
every entry is referred to, and no operand word refers to an entry that is not there. -/
theorem pool_of_lower (h : (p.lower n).result = .ok code) :
    code.constants.entries = (literals p.instrs).eraseDupsBy Constant.same ∧
      (∀ k m c, LiteralAt p.instrs k m c →
        ∃ index, p.RefersTo code k m index ∧
          code.constants.entries.findIdx? (·.same c) = some index.toNat) ∧
      (∀ i < code.constants.size,
        ∃ k m c index, LiteralAt p.instrs k m c ∧ p.RefersTo code k m index ∧ index.toNat = i) ∧
      ∀ k m index, StorageAt p.instrs k m → p.RefersTo code k m index →
        index.toNat < code.constants.size := by
  refine ⟨?_, fun k m c hc => exists_refersTo h hc, fun i hi => exists_refersTo_of_lt h hi, ?_⟩
  · rw [constants_of_lower h]
    exact Pool.entries_addAll_eq_eraseDupsBy _
  · intro k m index hstorage hrefers
    obtain ⟨c, hc⟩ := hrefers.exists_literalAt h hstorage
    obtain ⟨index', hrefers', hindex⟩ := exists_refersTo h hc
    obtain rfl := hrefers.unique hrefers'
    exact (List.findIdx?_eq_some_iff_getElem.1 hindex).1

end Program

/-- A program that asks for the type of a literal, and names this literal and the type again. -/
def typedLiteral : Program :=
  let loc : Position := ⟨1, 1⟩
  ⟨[.typeIs loc (.const (.int 2)) "int" (.fixed ⟨0⟩),
    .op loc .add [.const (.str "int"), .const (.int 2), .output (.fixed ⟨1⟩)],
    .ret loc (.const (.int 1))]⟩

/-- Its code. -/
def typedLiteralCode : Code where
  words := #[8, 0x10000000, 0x10000001, 0, 9, 0x10000001, 0x10000000, 1, 6, 0x10000002]
  locs := Array.replicate 10 ⟨1, 1⟩
  constants := ⟨[.int 2, .str "int", .int 1]⟩
  frameSize := 2

theorem lower_typedLiteral : (typedLiteral.lower 2).result = .ok typedLiteralCode := by
  decide

namespace Program

theorem pool_of_lower_typedLiteral :
    (typedLiteral.lower 2).result = .ok typedLiteralCode ∧
      [.int 2, .str "int", .str "int", .int 2, .int 1].eraseDupsBy Constant.same =
        typedLiteralCode.constants.entries ∧
      LiteralAt typedLiteral.instrs 1 0 (.str "int") ∧
      typedLiteral.RefersTo typedLiteralCode 1 0 1 := by
  have hliteral : LiteralAt typedLiteral.instrs 1 0 (.str "int") := ⟨_, rfl, rfl⟩
  obtain ⟨hentries, hwords, -, -⟩ := pool_of_lower lower_typedLiteral
  obtain ⟨index, hrefers, hindex⟩ := hwords 1 0 (.str "int") hliteral
  have hone : typedLiteralCode.constants.entries.findIdx? (·.same (.str "int")) = some 1 := by
    decide
  obtain rfl : index = 1 := UInt32.toNat_inj.1 (Option.some.inj (hindex.symm.trans hone))
  exact ⟨lower_typedLiteral, hentries.symm, hliteral, hrefers⟩

end Program

end Assembler
