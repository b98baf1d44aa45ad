import Mathlib.Data.List.Forall2
import Assembler.Lowering
import Assembler.Proofs.Operands

/-!
# What a step of the lowering does

Writing a slot succeeds iff the slot has a place that an operand word has room for
(`Pass.writeSlot_eq_ok_iff`). From this follow, for the operand words of an instruction, what is
left in the pass (`Pass.wrote_of_foldlM`) and when they can be written (`Pass.exists_foldlM_eq_ok`).
A step of the pass is one of four (`Pass.stepped_iff`): an allocation, a release, a label, or the
words of an instruction.
-/

namespace Assembler

theorem bind_eq_ok_iff {ε α β : Type} {x : Except ε α} {f : α → Except ε β} {b : β} :
    (x >>= f) = .ok b ↔ ∃ a, x = .ok a ∧ f a = .ok b := by
  cases x <;> simp [Bind.bind, Except.bind]

theorem pure_eq_ok_iff {ε α : Type} {a b : α} : (pure a : Except ε α) = .ok b ↔ a = b := by
  simp [Pure.pure, Except.pure]

theorem sum?_eq_some_iff {a b c : UInt32} :
    sum? a b = some c ↔ c.toNat = a.toNat + b.toNat := by
  unfold sum?
  split
  next h =>
    have hsum : (a + b).toNat = a.toNat + b.toNat := by
      rw [UInt32.toNat_add]
      exact Nat.mod_eq_of_lt h
    rw [Option.some.injEq, ← hsum, ← UInt32.toNat_inj, eq_comm]
  next h =>
    have := c.toNat_lt_size
    simp only [reduceCtorEq, false_iff]
    omega

theorem operand_eq_ok_iff {kind : Kind} {index : UInt32} {o : Operand} :
    operand kind index = .ok o ↔ o.kind = kind ∧ o.index = index := by
  obtain ⟨kind', index', hle⟩ := o
  unfold operand Operand.ofIndex?
  by_cases h : index ≤ maxIndex
  · simp [h, eq_comm]
  · simp only [h, dite_false, reduceCtorEq, false_iff, not_and]
    rintro - rfl
    exact h hle

theorem operand_bind_eq_ok_iff {kind : Kind} {index : UInt32} {f : Operand → Pass} {q : Pass} :
    (operand kind index >>= fun o => pure (f o)) = .ok q ↔
      ∃ o : Operand, some (kind, index.toNat) = some (o.kind, o.index.toNat) ∧ q = f o := by
  simp only [bind_eq_ok_iff, pure_eq_ok_iff, operand_eq_ok_iff, Option.some.injEq, Prod.mk.injEq,
    UInt32.toNat_inj]
  apply exists_congr
  intro o
  rw [eq_comm (a := o.kind), eq_comm (a := o.index), eq_comm (a := f o)]

namespace Pass

/-! ## Slots -/

theorem frameIndex_eq_ok_iff {p : Pass} {v : Var} {index : UInt32} :
    p.frameIndex v = .ok index ↔ v.index? p.fixedLocals p.frame = some index.toNat := by
  cases v with
  | fixed l =>
    unfold frameIndex Var.index?
    by_cases h : l.index < p.fixedLocals
    · simp [h, UInt32.toNat_inj]
    · simp [h]
  | temp t =>
    simp only [frameIndex, Var.index?, bind_eq_ok_iff, Option.map_eq_some_iff,
      Frame.resolve_eq_ok_iff]
    apply exists_congr
    intro r
    apply and_congr_right
    intro
    rw [eq_comm (a := p.fixedLocals.toNat + r.toNat), ← sum?_eq_some_iff]
    cases sum? p.fixedLocals r <;> simp

/-- The pass that has taken note of the operand of a slot. -/
def note (p : Pass) (o : Operand) : Slot → Pass
  | .var _ => { p with maxLocal := some (p.maxLocal.elim o.index (max · o.index)) }
  | .const c => { p with code := { p.code with constants := (p.code.constants.add c).1 } }
  | _ => p

/-- A slot is written iff an operand word has room for its place. -/
theorem writeSlot_eq_ok_iff {p q : Pass} (hfits : p.code.constants.Fits) {s : Slot} :
    p.writeSlot s = .ok q ↔
      ∃ o : Operand,
        s.place? p.fixedLocals p.frame (p.code.constants.addAll s.const?.toList) =
          some (o.kind, o.index.toNat) ∧
        q = (p.note o s).push p.loc o.encode := by
  cases s with
  | var v =>
    simp only [writeSlot, bind_eq_ok_iff, pure_eq_ok_iff, operand_eq_ok_iff, note, Slot.place?,
      frameIndex_eq_ok_iff, Option.map_eq_some_iff, Prod.mk.injEq]
    constructor
    · rintro ⟨index, hindex, o, ⟨hkind, rfl⟩, rfl⟩
      exact ⟨o, ⟨_, hindex, hkind.symm, rfl⟩, rfl⟩
    · rintro ⟨o, ⟨_, hindex, hkind, rfl⟩, rfl⟩
      exact ⟨o.index, hindex, o, ⟨hkind.symm, rfl⟩, rfl⟩
  | const c =>
    obtain ⟨i, hi, hword, hle, -⟩ := p.code.constants.indexOf?_add c
    have hsmall : i < UInt32.size := by
      have hmax : maxIndex.toNat + 1 < UInt32.size := by decide
      have : p.code.constants.size ≤ maxIndex.toNat + 1 := hfits
      omega
    have hback : i.toUInt32.toNat = i := toNat_toUInt32 hsmall
    simp only [writeSlot, hword, Slot.const?, Option.toList_some, Pool.addAll_cons,
      Pool.addAll_nil, Slot.place?, hi, Option.map_some, note]
    rw [operand_bind_eq_ok_iff, hback]
  | global index => exact operand_bind_eq_ok_iff
  | cell index => exact operand_bind_eq_ok_iff
  | free index => exact operand_bind_eq_ok_iff

theorem constants_note (p : Pass) (o : Operand) (s : Slot) :
    (p.note o s).code.constants = p.code.constants.addAll s.const?.toList := by
  cases s <;> rfl

theorem fits_note {p : Pass} (hfits : p.code.constants.Fits) {o : Operand} {s : Slot}
    (ho : s.place? p.fixedLocals p.frame (p.code.constants.addAll s.const?.toList) =
      some (o.kind, o.index.toNat)) : (p.note o s).code.constants.Fits := by
  rw [constants_note]
  cases s with
  | const c =>
    obtain ⟨i, hi, -, -, hsize⟩ := p.code.constants.indexOf?_add c
    have hindex : i = o.index.toNat := by
      simp only [Slot.const?, Option.toList_some, Pool.addAll_cons, Pool.addAll_nil, Slot.place?,
        hi, Option.map_some, Option.some.injEq, Prod.mk.injEq] at ho
      exact ho.2
    have hle : o.index.toNat ≤ maxIndex.toNat := UInt32.le_iff_toNat_le.1 o.index_le
    have : p.code.constants.size ≤ maxIndex.toNat + 1 := hfits
    show (p.code.constants.add c).1.size ≤ maxIndex.toNat + 1
    omega
  | _ => exact hfits

/-! ## Fields -/

end Pass

namespace Field

/-- The constant of a field. -/
def const? : Field → Option Constant
  | slot s => s.const?
  | _ => none

/-- `w` is the word of a field, while the address that a branch waits for is not known. -/
def Word (n : UInt32) (f : Frame) (pool : Pool) : Field → UInt32 → Prop
  | slot s, w => s.Word n f pool w
  | word v, w | located _ v, w => w = v
  | jump _, w => w = pending

/-- The position of the word of a field, if that of the instruction is `loc`. -/
def position (loc : Position) : Field → Position
  | located loc' _ => loc'
  | _ => loc

/-- The field can be written: an operand word has room for the place of its slot, and its label is
still to come. -/
def Writable (p : Pass) (pool : Pool) : Field → Prop
  | slot s =>
    ∃ place, s.place? p.fixedLocals p.frame pool = some place ∧ place.2 ≤ maxIndex.toNat
  | word _ | located _ _ => True
  | jump label => p.jumps.address? label = none

/-- The address word at an offset, if the field is one that waits for a label. -/
def fixup? (n off : Nat) : Field → Option Fixup
  | jump label => some ⟨off, label, n⟩
  | _ => none

variable {n : UInt32} {f : Frame} {pool pool' : Pool} {p q : Pass} {d : Field}

theorem Word.of_isPrefix (h : pool.entries <+: pool'.entries) {w : UInt32}
    (hw : d.Word n f pool w) : d.Word n f pool' w := by
  cases d with
  | slot s => exact Slot.Word.of_isPrefix h hw
  | _ => exact hw

theorem Writable.of_isPrefix (h : pool.entries <+: pool'.entries) (hd : d.Writable p pool) :
    d.Writable p pool' := by
  cases d with
  | slot s =>
    obtain ⟨place, hplace, hle⟩ := hd
    exact ⟨place, Slot.place?_of_isPrefix h hplace, hle⟩
  | _ => exact hd

theorem writable_congr (hlocals : q.fixedLocals = p.fixedLocals) (hframe : q.frame = p.frame)
    (hplaced : q.jumps.placed = p.jumps.placed) : d.Writable q pool ↔ d.Writable p pool := by
  cases d <;> simp [Writable, Jumps.address?, hlocals, hframe, hplaced]

end Field

/-- The address words among fields that wait for a label. The first field is at offset `off`. -/
def fieldFixups (n : Nat) : Nat → List Field → List Fixup
  | _, [] => []
  | off, d :: ds => (d.fixup? n off).toList ++ fieldFixups n (off + 1) ds

theorem fieldFixups_append (n off : Nat) (ds es : List Field) :
    fieldFixups n off (ds ++ es) =
      fieldFixups n off ds ++ fieldFixups n (off + ds.length) es := by
  induction ds generalizing off with
  | nil => rfl
  | cons d ds ih =>
    rw [List.cons_append, fieldFixups, fieldFixups, ih, List.append_assoc, List.length_cons,
      Nat.add_assoc, Nat.add_comm 1]

namespace Pass

/-- `q` is `p` after fields `ds` of instruction number `n` have been written. -/
structure Wrote (n : Nat) (p : Pass) (ds : List Field) (q : Pass) : Prop where
  fixedLocals : q.fixedLocals = p.fixedLocals
  frame : q.frame = p.frame
  placed : q.jumps.placed = p.jumps.placed
  loops : q.jumps.loops = p.jumps.loops
  fixups : q.jumps.fixups = p.jumps.fixups ++ fieldFixups n p.offset ds
  current : q.current = p.current
  accounted : q.accounted = p.accounted
  constants : q.code.constants = p.code.constants.addAll (ds.filterMap Field.const?)
  fits : q.code.constants.Fits
  locs : q.code.locs.toList = p.code.locs.toList ++ ds.map (Field.position p.loc)
  words : ∃ ws, q.code.words.toList = p.code.words.toList ++ ws ∧
    List.Forall₂ (Field.Word p.fixedLocals p.frame q.code.constants) ds ws
  writable : ∀ d ∈ ds, d.Writable p q.code.constants
  maxLocal : ∀ b, (∀ index, p.maxLocal = some index → index.toNat < b) →
    (∀ v i, .slot (.var v) ∈ ds → v.index? p.fixedLocals p.frame = some i → i < b) →
    ∀ index, q.maxLocal = some index → index.toNat < b

theorem Wrote.loc {n : Nat} {p q : Pass} {ds : List Field} (h : Wrote n p ds q) :
    q.loc = p.loc := by
  rw [Pass.loc, h.current, Pass.loc]

theorem Wrote.offset {n : Nat} {p q : Pass} {ds : List Field} (h : Wrote n p ds q) :
    q.offset = p.offset + ds.length := by
  obtain ⟨ws, hws, hforall⟩ := h.words
  have := congrArg List.length hws
  rw [List.length_append, Array.length_toList, Array.length_toList, ← hforall.length_eq] at this
  exact this

theorem Wrote.constants_isPrefix {n : Nat} {p q : Pass} {ds : List Field} (h : Wrote n p ds q) :
    p.code.constants.entries <+: q.code.constants.entries := by
  rw [h.constants]
  exact Pool.prefix_addAll _ _

theorem Wrote.nil {n : Nat} {p : Pass} (hfits : p.code.constants.Fits) :
    Wrote n p [] p where
  fixedLocals := rfl
  frame := rfl
  placed := rfl
  loops := rfl
  fixups := (List.append_nil _).symm
  current := rfl
  accounted := rfl
  constants := rfl
  fits := hfits
  locs := (List.append_nil _).symm
  words := ⟨[], (List.append_nil _).symm, .nil⟩
  writable := nofun
  maxLocal := fun _ h _ => h

theorem Wrote.append {n : Nat} {p q r : Pass} {ds es : List Field} (h : Wrote n p ds q)
    (h' : Wrote n q es r) : Wrote n p (ds ++ es) r where
  fixedLocals := h'.fixedLocals.trans h.fixedLocals
  frame := h'.frame.trans h.frame
  placed := h'.placed.trans h.placed
  loops := h'.loops.trans h.loops
  fixups := by rw [h'.fixups, h.fixups, h.offset, fieldFixups_append, List.append_assoc]
  current := h'.current.trans h.current
  accounted := h'.accounted.trans h.accounted
  constants := by
    rw [h'.constants, h.constants, List.filterMap_append, Pool.addAll_append]
  fits := h'.fits
  locs := by
    rw [h'.locs, h.locs, h.loc, List.append_assoc, List.map_append]
  words := by
    obtain ⟨ws, hws, hforall⟩ := h.words
    obtain ⟨ws', hws', hforall'⟩ := h'.words
    refine ⟨ws ++ ws', by rw [hws', hws, List.append_assoc], ?_⟩
    rw [h.fixedLocals, h.frame] at hforall'
    exact List.rel_append (hforall.imp fun _ _ hw => hw.of_isPrefix h'.constants_isPrefix) hforall'
  writable := by
    intro d hd
    rcases List.mem_append.1 hd with hd | hd
    · exact (h.writable d hd).of_isPrefix h'.constants_isPrefix
    · exact (Field.writable_congr h.fixedLocals h.frame h.placed).1 (h'.writable d hd)
  maxLocal := by
    intro b hp hindex
    apply h'.maxLocal b
    · exact h.maxLocal b hp fun v i hv => hindex v i (List.mem_append_left _ hv)
    · intro v i hv hi
      rw [h.fixedLocals, h.frame] at hi
      exact hindex v i (List.mem_append_right _ hv) hi

theorem note_eq (p : Pass) (o : Operand) (s : Slot) :
    p.note o s =
      { p with
        code := { p.code with constants := p.code.constants.addAll s.const?.toList }
        maxLocal := (p.note o s).maxLocal } := by
  cases s <;> rfl

theorem maxLocal_note_lt {p : Pass} {o : Operand} {s : Slot} {b : Nat}
    (h : ∀ index, p.maxLocal = some index → index.toNat < b)
    (hs : ∀ v, s = .var v → o.index.toNat < b) {index : UInt32}
    (hindex : (p.note o s).maxLocal = some index) : index.toNat < b := by
  cases s with
  | var v =>
    have ho := hs v rfl
    cases hmax : p.maxLocal with
    | none =>
      simp only [note, hmax, Option.elim, Option.some.injEq] at hindex
      exact hindex ▸ ho
    | some m =>
      simp only [note, hmax, Option.elim, Option.some.injEq] at hindex
      have hm := h m hmax
      rw [← hindex, toNat_max]
      exact Nat.max_lt.2 ⟨hm, ho⟩
  | _ => exact h index hindex

theorem await_eq_ok_iff {j k : Jumps} {label : Label} {offset branch : Nat} :
    j.await label offset branch = .ok k ↔
      j.address? label = none ∧ k = { j with fixups := j.fixups ++ [⟨offset, label, branch⟩] } := by
  unfold Jumps.await
  cases j.address? label with
  | none => simp [eq_comm]
  | some address => simp

theorem wrote_writeField {n : Nat} {p q : Pass} {d : Field} (hfits : p.code.constants.Fits)
    (h : p.writeField n d = .ok q) : Wrote n p [d] q := by
  cases d with
  | slot s =>
    obtain ⟨o, ho, rfl⟩ := (writeSlot_eq_ok_iff hfits).1 h
    have hnote := fits_note hfits ho
    have hconst : [Field.slot s].filterMap Field.const? = s.const?.toList := by
      cases hs : s.const? <;> simp [Field.const?, hs]
    have hplace : s.place? p.fixedLocals p.frame (p.note o s).code.constants =
        some (o.kind, o.index.toNat) := by
      rw [constants_note, ho]
    exact {
      fixedLocals := by rw [note_eq]; rfl
      frame := by rw [note_eq]; rfl
      placed := by rw [note_eq]; rfl
      loops := by rw [note_eq]; rfl
      fixups := by rw [note_eq]; simp [push, fieldFixups, Field.fixup?]
      current := by rw [note_eq]; rfl
      accounted := by rw [note_eq]; rfl
      constants := by rw [hconst]; exact constants_note p o s
      fits := hnote
      locs := by rw [note_eq]; simp [push, Code.push, Field.position]
      words := ⟨[o.encode], by rw [note_eq]; simp [push, Code.push], .cons ⟨o, hplace, rfl⟩ .nil⟩
      writable := by
        simp only [List.mem_singleton, forall_eq]
        exact ⟨_, hplace, UInt32.le_iff_toNat_le.1 o.index_le⟩
      maxLocal := by
        intro b hp hv index hindex
        refine maxLocal_note_lt hp ?_ hindex
        rintro v rfl
        obtain ⟨i, hi, heq⟩ := Option.map_eq_some_iff.1 ho
        obtain rfl : i = o.index.toNat := congrArg Prod.snd heq
        exact hv v _ List.mem_cons_self hi }
  | word w | located loc w =>
    obtain rfl := Except.ok.inj h
    refine ⟨rfl, rfl, rfl, rfl, ?_, rfl, rfl, rfl, hfits, ?_, ⟨[w], ?_, .cons rfl .nil⟩, ?_, ?_⟩
    · simp [push, fieldFixups, Field.fixup?]
    · simp [push, Code.push, Field.position]
    · simp [push, Code.push]
    · simp [Field.Writable]
    · exact fun _ hp _ => hp
  | jump label =>
    simp only [writeField, bind_eq_ok_iff, pure_eq_ok_iff, await_eq_ok_iff] at h
    obtain ⟨j, ⟨hnone, rfl⟩, rfl⟩ := h
    refine ⟨rfl, rfl, rfl, rfl, ?_, rfl, rfl, rfl, hfits, ?_, ⟨[pending], ?_, .cons rfl .nil⟩, ?_,
      ?_⟩
    · simp [push, fieldFixups, Field.fixup?]
    · simp [push, Code.push, Field.position]
    · simp [push, Code.push]
    · simpa [Field.Writable] using hnone
    · exact fun _ hp _ => hp

/-- What the pass holds after the operand words of an instruction. -/
theorem wrote_of_foldlM {n : Nat} {p q : Pass} {ds : List Field} (hfits : p.code.constants.Fits)
    (h : ds.foldlM (writeField n) p = .ok q) : Wrote n p ds q := by
  induction ds generalizing p with
  | nil =>
    obtain rfl := Except.ok.inj h
    exact .nil hfits
  | cons d ds ih =>
    rw [List.foldlM_cons, bind_eq_ok_iff] at h
    obtain ⟨r, hr, hq⟩ := h
    have hd := wrote_writeField hfits hr
    exact hd.append (ih hd.fits hq)

theorem exists_writeField_eq_ok (n : Nat) {p : Pass} {d : Field} {pool : Pool}
    (hfits : p.code.constants.Fits)
    (hpool : (p.code.constants.addAll d.const?.toList).entries <+: pool.entries)
    (h : d.Writable p pool) : ∃ q, p.writeField n d = .ok q := by
  cases d with
  | slot s =>
    obtain ⟨⟨kind, i⟩, hplace, hle⟩ := h
    have hback : i.toUInt32.toNat = i := by
      have hmax : maxIndex.toNat < UInt32.size := by decide
      exact toNat_toUInt32 (Nat.lt_of_le_of_lt hle hmax)
    let o : Operand := ⟨kind, i.toUInt32, by rw [UInt32.le_iff_toNat_le, hback]; exact hle⟩
    refine ⟨(p.note o s).push p.loc o.encode, (writeSlot_eq_ok_iff hfits).2 ⟨o, ?_, rfl⟩⟩
    have hplaces := @Slot.place?_addAll_const? p.fixedLocals p.frame s _ _ hpool
    rw [hplaces, hplace]
    simp [o, hback]
  | word w | located loc w => exact ⟨_, rfl⟩
  | jump label =>
    simp only [writeField, bind_eq_ok_iff, pure_eq_ok_iff, await_eq_ok_iff]
    exact ⟨_, _, ⟨h, rfl⟩, rfl⟩

/-- Fields that can be written one by one can be written in a row. -/
theorem exists_foldlM_eq_ok (n : Nat) {p : Pass} {ds : List Field} {pool : Pool}
    (hfits : p.code.constants.Fits)
    (hpool : (p.code.constants.addAll (ds.filterMap Field.const?)).entries <+: pool.entries)
    (h : ∀ d ∈ ds, d.Writable p pool) : ∃ q, ds.foldlM (writeField n) p = .ok q := by
  induction ds generalizing p with
  | nil => exact ⟨p, rfl⟩
  | cons d ds ih =>
    have hsplit : (d :: ds).filterMap Field.const? =
        d.const?.toList ++ ds.filterMap Field.const? := by
      cases hd : d.const? <;> simp [hd]
    rw [hsplit, Pool.addAll_append] at hpool
    obtain ⟨q, hq⟩ := exists_writeField_eq_ok n hfits ((Pool.prefix_addAll _ _).trans hpool)
      (h d List.mem_cons_self)
    have hwrote := wrote_writeField hfits hq
    have hconst : q.code.constants = p.code.constants.addAll d.const?.toList := by
      rw [hwrote.constants]
      cases hd : d.const? <;> simp [hd]
    obtain ⟨r, hr⟩ := ih hwrote.fits (by rwa [hconst]) fun e he =>
      (Field.writable_congr hwrote.fixedLocals hwrote.frame hwrote.placed).2
        (h e (List.mem_cons_of_mem _ he))
    exact ⟨r, by rw [List.foldlM_cons, bind_eq_ok_iff]; exact ⟨q, hq, hr⟩⟩

end Pass

/-! ## Instructions -/

/-- The field that is written for a role of an instruction at `loc` if `l` is the innermost loop. -/
def Role.field (loc : Position) (l : Loop) : Role → Field
  | .slot s => .slot s
  | .word w => .word w
  | .target label => .jump label
  | .loopEnd => .located loc pending
  | .loopItem => .slot (.var l.item)
  | .loopStart => .located loc l.body

theorem Role.const?_field (loc : Position) (l : Loop) (role : Role) :
    (role.field loc l).const? = role.const? := by
  cases role <;> rfl

theorem Role.position_field (loc : Position) (l : Loop) (role : Role) :
    (role.field loc l).position loc = loc := by
  cases role <;> rfl

/-- All words of an instruction have its position, by whichever way they get it. -/
theorem Instr.map_position_field (l : Loop) (i : Instr) :
    (i.roles.map (Role.field i.loc l)).map (Field.position i.loc) =
      List.replicate i.roles.length i.loc := by
  rw [List.map_map, List.eq_replicate_iff, List.length_map]
  refine ⟨rfl, fun loc hloc => ?_⟩
  obtain ⟨role, -, rfl⟩ := List.mem_map.1 hloc
  exact role.position_field i.loc l

theorem Instr.filterMap_const?_field (loc : Position) (l : Loop) (i : Instr) :
    (i.roles.map (Role.field loc l)).filterMap Field.const? = i.constants := by
  rw [List.filterMap_map]
  exact List.filterMap_congr fun role _ => role.const?_field loc l

theorem Arg.map_field_role (loc : Position) (l : Loop) (args : List Arg) :
    (args.map Arg.role).map (Role.field loc l) = args.map Arg.field := by
  rw [List.map_map]
  refine List.map_congr_left fun a _ => ?_
  cases a <;> rfl

namespace Pass

/-- The innermost open loop. -/
def inner (p : Pass) : Loop :=
  p.jumps.loops.headD default

/-- The pass before the words of an instruction are written: a loop that is closed is left. -/
def leave (p : Pass) : Instr → Pass
  | .forClose _ => { p with jumps := { p.jumps with loops := p.jumps.loops.tail } }
  | _ => p

/-- The pass `q` after the words of an instruction have been written from `p` on: a loop that is
opened is entered, and the end of one that is closed is patched. -/
def settle (p q : Pass) : Instr → Pass
  | .forInit _ _ item => { q with jumps := q.jumps.enter ⟨item, q.offset.toUInt32, p.offset + 3⟩ }
  | .forClose _ => { q with code := q.code.patch p.inner.exit q.offset.toUInt32 }
  | _ => q

theorem leave_eq (p : Pass) (i : Instr) :
    p.leave i = { p with jumps := { p.jumps with loops := (p.leave i).jumps.loops } } := by
  cases i <;> rfl

theorem settle_eq (p q : Pass) (i : Instr) :
    p.settle q i =
      { q with
        jumps := { q.jumps with loops := (p.settle q i).jumps.loops }
        code := { q.code with words := (p.settle q i).code.words } } := by
  cases i <;> rfl

theorem offset_settle (p q : Pass) (i : Instr) : (p.settle q i).offset = q.offset := by
  cases i with
  | forClose loc => exact Code.size_patch _ _ _
  | _ => rfl

/-- The pass in which the words of an opcode are accounted for. -/
def ended (p : Pass) (op : Opcode) : Pass :=
  { p with current := none, accounted := p.accounted + op.width }

/-- What instruction number `n` can do to a pass. -/
inductive Stepped (n : Nat) (p : Pass) : Instr → Pass → Prop where
  | alloc {t : Temp} (h : p.frame.binding? t = none) :
      Stepped n p (.alloc t) { p with frame := p.frame.allocated t }
  | release {t : Temp} {r : UInt32} (h : p.frame.binding? t = some (.live r)) :
      Stepped n p (.release t) { p with frame := p.frame.released t r }
  | place {label : Label} (h : p.jumps.address? label = none) :
      Stepped n p (.place label)
        { p with jumps := { p.jumps with placed := (label, p.offset.toUInt32) :: p.jumps.placed } }
  | write {i : Instr} {op : Opcode} {q : Pass} (hop : i.opcode? = some op) (hi : i.Formed)
      (hclose : ∀ loc, i = .forClose loc → p.jumps.loops ≠ [])
      (h : (i.roles.map (Role.field i.loc p.inner)).foldlM (writeField n)
        ((p.leave i).start i.loc op) = .ok q) :
      Stepped n p i (p.settle (q.ended op) i)

theorem emit_eq_ok_iff {n : Nat} {loc : Position} {p q : Pass} {op : Opcode} {ds : List Field}
    (hfits : p.code.constants.Fits) :
    p.emit n loc op ds = .ok q ↔
      ds.length = op.operandCount ∧
        ∃ r, ds.foldlM (writeField n) (p.start loc op) = .ok r ∧ q = r.ended op := by
  unfold emit
  rw [bind_eq_ok_iff]
  have hstop {r : Pass} (hr : ds.foldlM (writeField n) (p.start loc op) = .ok r) :
      r.stop = .ok q ↔ 1 + ds.length = op.width ∧ q = r.ended op := by
    have hwrote := wrote_of_foldlM (p := p.start loc op) hfits hr
    have hstart : (p.start loc op).offset = p.offset + 1 := Code.size_push _ _ _
    have hwritten : r.offset - p.offset = 1 + ds.length := by
      have := hwrote.offset
      omega
    have hcurrent : r.current = some ⟨op, p.offset, loc⟩ := hwrote.current
    simp only [stop, hcurrent, hwritten]
    by_cases hwidth : 1 + ds.length = op.width
    · simp [hwidth, ended, eq_comm]
    · simp [hwidth]
  have harity : 1 + ds.length = op.width ↔ ds.length = op.operandCount := Nat.add_right_inj
  constructor
  · rintro ⟨r, hr, hq⟩
    obtain ⟨hwidth, rfl⟩ := (hstop hr).1 hq
    exact ⟨harity.1 hwidth, r, hr, rfl⟩
  · rintro ⟨hcount, r, hr, hq⟩
    exact ⟨r, hr, (hstop hr).2 ⟨harity.2 hcount, hq⟩⟩

theorem place_eq_ok_iff {j k : Jumps} {label : Label} {address : UInt32} :
    j.place label address = .ok k ↔
      j.address? label = none ∧ k = { j with placed := (label, address) :: j.placed } := by
  unfold Jumps.place
  cases j.address? label with
  | none => simp [eq_comm]
  | some address => simp

/-- The words of an instruction are written by `emit`. -/
theorem stepped_of_emit {n : Nat} {p q : Pass} {i : Instr} {op : Opcode}
    (hfits : p.code.constants.Fits) (hop : i.opcode? = some op) (hi : i.Formed)
    (hclose : ∀ loc, i = .forClose loc → p.jumps.loops ≠ [])
    (h : (p.leave i).emit n i.loc op (i.roles.map (Role.field i.loc p.inner)) = .ok q) :
    Stepped n p i (p.settle q i) := by
  have hleave : (p.leave i).code.constants.Fits := by
    cases i <;> exact hfits
  obtain ⟨-, r, hr, rfl⟩ := (emit_eq_ok_iff hleave).1 h
  exact .write hop hi hclose hr

theorem exists_event_iff {x : Except Fault Pass} {q : Pass} :
    (∃ event, (x >>= fun p => pure (p, (none : Option Event))) = .ok (q, event)) ↔ x = .ok q := by
  simp only [bind_eq_ok_iff, pure_eq_ok_iff, Prod.mk.injEq]
  constructor
  · rintro ⟨-, p, hp, rfl, -⟩
    exact hp
  · intro h
    exact ⟨none, q, h, rfl, rfl⟩

theorem step_alloc (p : Pass) (n : Nat) (t : Temp) :
    p.step n (.alloc t) = (p.frame.alloc t).1 >>= fun index =>
      pure ({ p with frame := (p.frame.alloc t).2 }, some (.allocated t index)) := rfl

theorem step_release (p : Pass) (n : Nat) (t : Temp) :
    p.step n (.release t) = (p.frame.release t).1 >>= fun index =>
      pure ({ p with frame := (p.frame.release t).2 },
        some (.released t index (p.frame.release t).2.nextFree)) := rfl

theorem step_alloc_eq_ok_iff {p q : Pass} {n : Nat} {t : Temp} {event : Option Event} :
    p.step n (.alloc t) = .ok (q, event) ↔ p.frame.binding? t = none ∧
      q = { p with frame := p.frame.allocated t } ∧
      event = some (.allocated t p.frame.nextFree) := by
  rw [step_alloc, bind_eq_ok_iff]
  constructor
  · rintro ⟨r, hr, h⟩
    have hcall : p.frame.alloc t = (.ok r, (p.frame.alloc t).2) := Prod.ext hr rfl
    obtain ⟨hnone, hframe, rfl⟩ := Frame.alloc_eq_ok_iff.1 hcall
    rw [hframe] at h
    obtain ⟨rfl, rfl⟩ := Prod.mk.inj (Except.ok.inj h)
    exact ⟨hnone, rfl, rfl⟩
  · rintro ⟨hnone, rfl, rfl⟩
    rw [Frame.alloc_of_none hnone]
    exact ⟨p.frame.nextFree, rfl, rfl⟩

theorem step_release_eq_ok_iff {p q : Pass} {n : Nat} {t : Temp} {event : Option Event} :
    p.step n (.release t) = .ok (q, event) ↔ ∃ r, p.frame.binding? t = some (.live r) ∧
      q = { p with frame := p.frame.released t r } ∧
      event = some (.released t r (p.frame.released t r).nextFree) := by
  rw [step_release, bind_eq_ok_iff]
  constructor
  · rintro ⟨r, hr, h⟩
    have hcall : p.frame.release t = (.ok r, (p.frame.release t).2) := Prod.ext hr rfl
    obtain ⟨hlive, hframe⟩ := Frame.release_eq_ok_iff.1 hcall
    rw [hframe] at h
    obtain ⟨rfl, rfl⟩ := Prod.mk.inj (Except.ok.inj h)
    exact ⟨r, hlive, rfl, rfl⟩
  · rintro ⟨r, hlive, rfl, rfl⟩
    rw [Frame.release_of_live hlive]
    exact ⟨r, rfl, rfl⟩

theorem stepped_of_step {n : Nat} {p q : Pass} {i : Instr} (hfits : p.code.constants.Fits)
    (h : ∃ event, p.step n i = .ok (q, event)) : Stepped n p i q := by
  cases i with
  | alloc t =>
    obtain ⟨event, h⟩ := h
    obtain ⟨hnone, rfl, -⟩ := step_alloc_eq_ok_iff.1 h
    exact .alloc hnone
  | release t =>
    obtain ⟨event, h⟩ := h
    obtain ⟨r, hlive, rfl, -⟩ := step_release_eq_ok_iff.1 h
    exact .release hlive
  | place label =>
    obtain ⟨event, h⟩ := h
    simp only [step, bind_eq_ok_iff, pure_eq_ok_iff, place_eq_ok_iff] at h
    obtain ⟨j, ⟨hnone, rfl⟩, h⟩ := h
    obtain ⟨rfl, rfl⟩ := Prod.mk.inj h
    exact .place hnone
  | forInit loc collection item =>
    obtain ⟨r, hr, hq⟩ := bind_eq_ok_iff.1 (exists_event_iff.1 h)
    obtain rfl := Except.ok.inj hq
    exact stepped_of_emit hfits rfl trivial nofun hr
  | forClose loc =>
    obtain ⟨⟨j, l⟩, hj, h⟩ := bind_eq_ok_iff.1 (exists_event_iff.1 h)
    obtain ⟨r, hr, hq⟩ := bind_eq_ok_iff.1 h
    obtain rfl := Except.ok.inj hq
    cases hloops : p.jumps.loops with
    | nil => simp [Jumps.leave, hloops] at hj
    | cons l' loops =>
      simp only [Jumps.leave, hloops, Except.ok.injEq, Prod.mk.injEq] at hj
      obtain ⟨rfl, rfl⟩ := hj
      have hinner : p.inner = l' := by simp [inner, hloops]
      have hleave : p.leave (.forClose loc) = { p with jumps := { p.jumps with loops } } := by
        simp [leave, hloops]
      rw [← hinner, ← hleave] at hr
      have hne (loc' : Position) (_ : Instr.forClose loc = .forClose loc') : p.jumps.loops ≠ [] :=
        hloops ▸ List.cons_ne_nil _ _
      have := stepped_of_emit hfits (i := .forClose loc) rfl trivial hne hr
      rwa [settle, hinner] at this
  | op loc opcode args =>
    have h := exists_event_iff.1 h
    simp only [writeOp] at h
    split at h
    · cases h
    next hreserved =>
      split at h
      · cases h
      next harity =>
        rw [← Arg.map_field_role loc p.inner] at h
        exact stepped_of_emit hfits rfl ⟨by simpa using hreserved, by simpa using harity⟩ nofun h
  | copy | branch | branchIf | typeIs | ret =>
    exact stepped_of_emit hfits rfl trivial nofun (exists_event_iff.1 h)

theorem exists_step_of_stepped {n : Nat} {p q : Pass} {i : Instr} (hfits : p.code.constants.Fits)
    (h : Stepped n p i q) : ∃ event, p.step n i = .ok (q, event) := by
  cases h with
  | alloc h => exact ⟨_, step_alloc_eq_ok_iff.2 ⟨h, rfl, rfl⟩⟩
  | release h => exact ⟨_, step_release_eq_ok_iff.2 ⟨_, h, rfl, rfl⟩⟩
  | @place label h =>
    refine ⟨some (.placed label p.offset.toUInt32), ?_⟩
    simp only [step, place_eq_ok_iff.2 ⟨h, rfl⟩]
    rfl
  | @write i op r hop hi hclose h =>
    have hleave : (p.leave i).code.constants.Fits := by
      cases i <;> exact hfits
    have hemit := (emit_eq_ok_iff hleave).2
      ⟨by rw [List.length_map, Instr.length_roles hop hi], r, h, rfl⟩
    cases i with
    | alloc t => cases hop
    | release t => cases hop
    | place label => cases hop
    | forInit loc collection item =>
      cases hop
      exact exists_event_iff.2 (bind_eq_ok_iff.2 ⟨_, hemit, rfl⟩)
    | forClose loc =>
      cases hop
      refine exists_event_iff.2 (bind_eq_ok_iff.2 ?_)
      cases hloops : p.jumps.loops with
      | nil => exact absurd hloops (hclose loc rfl)
      | cons l loops =>
        have hinner : p.inner = l := by simp [inner, hloops]
        have hleave : p.leave (.forClose loc) = { p with jumps := { p.jumps with loops } } := by
          simp [leave, hloops]
        rw [hinner, hleave] at hemit
        refine ⟨({ p.jumps with loops }, l), by simp [Jumps.leave, hloops], ?_⟩
        rw [settle, hinner]
        exact bind_eq_ok_iff.2 ⟨_, hemit, rfl⟩
    | op loc opcode args =>
      cases hop
      refine exists_event_iff.2 ?_
      rw [writeOp, if_neg (by simp [hi.1]), if_neg (by simp [hi.2]),
        ← Arg.map_field_role loc p.inner]
      exact hemit
    | copy | branch | branchIf | typeIs | ret =>
      cases hop
      exact exists_event_iff.2 hemit

/-- The steps of the pass. -/
theorem stepped_iff {n : Nat} {p q : Pass} {i : Instr} (hfits : p.code.constants.Fits) :
    (∃ event, p.step n i = .ok (q, event)) ↔ Stepped n p i q :=
  ⟨stepped_of_step hfits, exists_step_of_stepped hfits⟩

end Pass

end Assembler
