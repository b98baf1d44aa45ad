import Mathlib.Data.List.Basic
import Assembler.Operand
import Assembler.Pool
import Assembler.Proofs.Frames
import Assembler.Proofs.Layout

/-!
# Operand words of slots

An operand word can be read back (`Operand.decode?_encode`). The place of a slot is a kind and a
number (`Slot.place?`), which depend on the frame and on the constants pooled so far. Entries are
only ever added at the end of a pool, so the place of a constant stays the same from its first use
on (`Slot.place?_of_isPrefix`).
-/

namespace Assembler

/-! ## Words -/

/-- A word that is the number of an entry in a list of distinct ones. -/
theorem toUInt32_idxOf {α : Type} [DecidableEq α] {all : List α} (hall : all.Nodup) {w : UInt32}
    {a : α} (h : all[w.toNat]? = some a) : (all.idxOf a).toUInt32 = w := by
  obtain ⟨hlt, rfl⟩ := List.getElem?_eq_some_iff.1 h
  rw [hall.idxOf_getElem, ← UInt32.toNat_inj, toNat_toUInt32 w.toNat_lt_size]

theorem Kind.tag_of_ofTag? {t : UInt32} {kind : Kind} (h : ofTag? t = some kind) : kind.tag = t :=
  toUInt32_idxOf (by decide) h

namespace Operand

theorem index_toNat_lt (o : Operand) : o.index.toNat < 268435456 :=
  Nat.lt_succ_of_le (UInt32.le_iff_toNat_le.1 o.index_le)

theorem encode_toNat (o : Operand) :
    o.encode.toNat = o.kind.tag.toNat * 268435456 + o.index.toNat := by
  have hindex := o.index_toNat_lt
  have htag : o.kind.tag.toNat < 5 := by
    cases o.kind <;> decide
  have hshift : (o.kind.tag <<< 28).toNat = o.kind.tag.toNat <<< 28 := by
    rw [UInt32.toNat_shiftLeft, show (28 : UInt32).toNat % 32 = 28 from rfl, Nat.shiftLeft_eq]
    omega
  rw [encode, UInt32.toNat_or, hshift, ← Nat.shiftLeft_add_eq_or_of_lt hindex, Nat.shiftLeft_eq]

/-- The tag of a word is its quotient by the number of indices, and the index the remainder. -/
theorem toNat_shiftRight_tag (w : UInt32) : (w >>> 28).toNat = w.toNat / 268435456 := by
  rw [UInt32.toNat_shiftRight, show (28 : UInt32).toNat % 32 = 28 from rfl,
    Nat.shiftRight_eq_div_pow]

theorem toNat_and_maxIndex (w : UInt32) : (w &&& maxIndex).toNat = w.toNat % 268435456 := by
  rw [UInt32.toNat_and, show maxIndex.toNat = 2 ^ 28 - 1 from rfl, Nat.and_two_pow_sub_one_eq_mod]

theorem decode?_encode (o : Operand) : decode? o.encode = some o := by
  have hindex := o.index_toNat_lt
  have htag : o.encode >>> 28 = o.kind.tag := by
    apply UInt32.toNat_inj.1
    rw [toNat_shiftRight_tag, encode_toNat]
    omega
  have hlow : o.encode &&& maxIndex = o.index := by
    apply UInt32.toNat_inj.1
    rw [toNat_and_maxIndex, encode_toNat]
    omega
  obtain ⟨kind, index, index_le⟩ := o
  simp only [decode?, htag, Kind.ofTag?_tag, Option.map_some, hlow]

/-- A word that can be read is the word of what is read. -/
theorem encode_of_decode? {w : UInt32} {o : Operand} (h : decode? w = some o) : o.encode = w := by
  obtain ⟨kind, hkind, rfl⟩ := Option.map_eq_some_iff.1 h
  have hhigh : kind.tag.toNat = w.toNat / 268435456 := by
    rw [Kind.tag_of_ofTag? hkind, toNat_shiftRight_tag]
  rw [← UInt32.toNat_inj, encode_toNat, toNat_and_maxIndex, hhigh]
  omega

theorem encode_injective : Function.Injective encode := by
  intro o o' h
  have hread := o.decode?_encode
  rw [h, o'.decode?_encode, Option.some.injEq] at hread
  exact hread.symm

end Operand

/-! ## Pools -/

theorem Constant.same_refl (c : Constant) : c.same c = true := by
  cases c <;> simp [Constant.same, Binary64.same]

namespace Pool

/-- The pool with constants in it, added in order. -/
def addAll (p : Pool) (constants : List Constant) : Pool :=
  constants.foldl (fun p c => (p.add c).1) p

/-- Every entry has a number that an operand word has room for. -/
def Fits (p : Pool) : Prop :=
  p.size ≤ maxIndex.toNat + 1

theorem fits_empty : ({} : Pool).Fits :=
  Nat.zero_le _

@[simp] theorem addAll_nil (p : Pool) : p.addAll [] = p := rfl

@[simp] theorem addAll_cons (p : Pool) (c : Constant) (cs : List Constant) :
    p.addAll (c :: cs) = (p.add c).1.addAll cs := rfl

theorem addAll_append (p : Pool) (cs ds : List Constant) :
    p.addAll (cs ++ ds) = (p.addAll cs).addAll ds := by
  simp [addAll]

theorem prefix_add (p : Pool) (c : Constant) : p.entries <+: (p.add c).1.entries := by
  unfold add
  split
  · exact List.prefix_rfl
  · exact List.prefix_append _ _

theorem prefix_addAll (p : Pool) (cs : List Constant) : p.entries <+: (p.addAll cs).entries := by
  induction cs generalizing p with
  | nil => exact List.prefix_rfl
  | cons c cs ih => exact (p.prefix_add c).trans (ih _)

/-- A constant that was added has an entry, whose number is the one returned. -/
theorem indexOf?_add (p : Pool) (c : Constant) :
    ∃ i, (p.add c).1.indexOf? c = some i ∧ (p.add c).2 = i.toUInt32 ∧ i ≤ p.size ∧
      (p.add c).1.size ≤ max p.size (i + 1) := by
  cases h : p.indexOf? c with
  | some i =>
    have hlt : i < p.size := (List.findIdx?_eq_some_iff_getElem.1 h).1
    have hadd : p.add c = (p, i.toUInt32) := by
      simp only [add, h]
    rw [hadd]
    exact ⟨i, h, rfl, Nat.le_of_lt hlt, Nat.le_max_left _ _⟩
  | none =>
    have hadd : p.add c = (⟨p.entries ++ [c]⟩, p.size.toUInt32) := by
      simp only [add, h]
    rw [hadd]
    refine ⟨p.size, ?_, rfl, Nat.le_refl _, ?_⟩
    · have hnone : p.entries.findIdx? (·.same c) = none := h
      simp [indexOf?, List.findIdx?_append, hnone, c.same_refl, size]
    · simp [size]

theorem indexOf?_of_isPrefix {p q : Pool} {c : Constant} {i : Nat} (h : p.entries <+: q.entries)
    (hi : p.indexOf? c = some i) : q.indexOf? c = some i := by
  obtain ⟨rest, hrest⟩ := h
  have hi : p.entries.findIdx? (·.same c) = some i := hi
  rw [indexOf?, ← hrest, List.findIdx?_append, hi]
  rfl

theorem exists_indexOf?_addAll {c : Constant} {cs : List Constant} (h : c ∈ cs) (p : Pool) :
    ∃ i, (p.addAll cs).indexOf? c = some i := by
  induction cs generalizing p with
  | nil => cases h
  | cons d cs ih =>
    rcases List.mem_cons.1 h with rfl | h
    · obtain ⟨i, hi, -⟩ := p.indexOf?_add c
      exact ⟨i, indexOf?_of_isPrefix (prefix_addAll _ cs) hi⟩
    · exact ih h _

theorem exists_same_of_indexOf? {p : Pool} {c : Constant} {i : Nat} (h : p.indexOf? c = some i) :
    ∃ e, p.entries[i]? = some e ∧ e.same c = true := by
  obtain ⟨hlt, hsame, -⟩ := List.findIdx?_eq_some_iff_getElem.1 h
  exact ⟨p.entries[i], List.getElem?_eq_getElem hlt, hsame⟩

end Pool

namespace Role

/-- The constant that an operand word refers to. -/
def const? : Role → Option Constant
  | slot s => s.const?
  | _ => none

end Role

/-- The constants of an instruction, in the order of its operands. -/
def Instr.constants (i : Instr) : List Constant :=
  i.roles.filterMap Role.const?

/-- The pool of the constants of a program. -/
def poolOf (is : List Instr) : Pool :=
  Pool.addAll {} (is.flatMap Instr.constants)

theorem poolOf_append (is js : List Instr) :
    poolOf (is ++ js) = (poolOf is).addAll (js.flatMap Instr.constants) := by
  rw [poolOf, List.flatMap_append, Pool.addAll_append]
  rfl

theorem poolOf_append_singleton (is : List Instr) (i : Instr) :
    poolOf (is ++ [i]) = (poolOf is).addAll i.constants := by
  simp [poolOf_append]

theorem poolOf_isPrefix (is js : List Instr) :
    (poolOf is).entries <+: (poolOf (is ++ js)).entries := by
  rw [poolOf_append]
  exact Pool.prefix_addAll _ _

/-- Every constant of a program has an entry in its pool. -/
theorem exists_indexOf?_poolOf {is : List Instr} {i : Instr} {c : Constant} (hi : i ∈ is)
    (hc : .slot (.const c) ∈ i.roles) : ∃ index, (poolOf is).indexOf? c = some index := by
  have hmem : c ∈ i.constants := List.mem_filterMap.2 ⟨.slot (.const c), hc, rfl⟩
  exact Pool.exists_indexOf?_addAll (List.mem_flatMap.2 ⟨i, hi, hmem⟩) _

/-! ## Places -/

/-- The frame index of a variable, if it has one. There are `n` fixed locals, and the cells of the
frame come above them. -/
def Var.index? (n : UInt32) (f : Frame) : Var → Option Nat
  | fixed l => if l.index < n then some l.index.toNat else none
  | temp t => (f.cell? t).map fun r => n.toNat + r.toNat

namespace Slot

/-- The place of a slot, if it has one: the kind of storage and the number in it. -/
def place? (n : UInt32) (f : Frame) (pool : Pool) : Slot → Option (Kind × Nat)
  | var v => (v.index? n f).map fun i => (.frame, i)
  | global index => some (.global, index.toNat)
  | cell index => some (.cell, index.toNat)
  | free index => some (.free, index.toNat)
  | const c => (pool.indexOf? c).map fun i => (.const, i)

/-- `w` is the operand word for the place of the slot. -/
def Word (n : UInt32) (f : Frame) (pool : Pool) (s : Slot) (w : UInt32) : Prop :=
  ∃ o : Operand, s.place? n f pool = some (o.kind, o.index.toNat) ∧ w = o.encode

variable {n : UInt32} {f : Frame} {s : Slot}

theorem place?_of_isPrefix {pool pool' : Pool} (h : pool.entries <+: pool'.entries)
    {place : Kind × Nat} (hs : s.place? n f pool = some place) :
    s.place? n f pool' = some place := by
  cases s with
  | const c =>
    obtain ⟨i, hi, rfl⟩ := Option.map_eq_some_iff.1 hs
    exact Option.map_eq_some_iff.2 ⟨i, Pool.indexOf?_of_isPrefix h hi, rfl⟩
  | _ => exact hs

/-- Once the constant of a slot is pooled, what is pooled later does not change its place. -/
theorem place?_addAll_const? {pool pool' : Pool}
    (h : (pool.addAll s.const?.toList).entries <+: pool'.entries) :
    s.place? n f (pool.addAll s.const?.toList) = s.place? n f pool' := by
  cases s with
  | const c =>
    obtain ⟨i, hi, -⟩ := pool.indexOf?_add c
    have hi' := Pool.indexOf?_of_isPrefix h hi
    simp only [const?, Option.toList_some, Pool.addAll_cons, Pool.addAll_nil, place?, hi, hi']
  | _ => rfl

theorem Word.of_isPrefix {pool pool' : Pool} (h : pool.entries <+: pool'.entries) {w : UInt32}
    (hw : s.Word n f pool w) : s.Word n f pool' w := by
  obtain ⟨o, ho, rfl⟩ := hw
  exact ⟨o, place?_of_isPrefix h ho, rfl⟩

theorem Word.unique {pool : Pool} {w w' : UInt32} (h : s.Word n f pool w)
    (h' : s.Word n f pool w') : w = w' := by
  obtain ⟨o, ho, rfl⟩ := h
  obtain ⟨o', ho', rfl⟩ := h'
  rw [ho, Option.some.injEq, Prod.mk.injEq, UInt32.toNat_inj] at ho'
  obtain ⟨kind, index, hle⟩ := o
  obtain ⟨kind', index', hle'⟩ := o'
  obtain ⟨rfl, rfl⟩ := ho'
  rfl

end Slot

end Assembler
