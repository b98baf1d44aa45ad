import Assembler.Proofs.Faults
import Assembler.Proofs.Finishing

/-!
# Renaming

Lowering sees which temporaries are the same and which labels are the same, and nothing else of
them. New numbers for both, new names for temporaries and new positions give the same words,
constants and frame, or the same fault under the new names (`Program.sameOutcome_rename`). Two
passes, one over the program and one over the renamed one, stay `Alike` at every step
(`Pass.Alike.step`).
-/

namespace Assembler

/-- New numbers for temporaries and labels, with different ones for different ones, and new names
for temporaries. -/
structure Renaming where
  temp : UInt64 → UInt64
  name : Temp → String
  label : UInt64 → UInt64
  temp_injective : Function.Injective temp
  label_injective : Function.Injective label

variable (ρ : Renaming)

/-- The temporary under its new number and name. -/
def Temp.rename (t : Temp) : Temp :=
  ⟨ρ.temp t.id, ρ.name t⟩

/-- The label under its new number. -/
def Label.rename (l : Label) : Label :=
  ⟨ρ.label l.id⟩

/-- The variable under its new name. -/
def Var.rename : Var → Var
  | fixed l => fixed l
  | temp t => temp (t.rename ρ)

/-- The slot with the new name of its variable. -/
def Slot.rename : Slot → Slot
  | var v => var (v.rename ρ)
  | s => s

/-- The argument with the new name of its variable. -/
def Arg.rename : Arg → Arg
  | input s => input (s.rename ρ)
  | output v => output (v.rename ρ)
  | a => a

/-- The instruction with new names and, if it has one, a new position. -/
def Instr.rename (loc : Position) : Instr → Instr
  | copy _ src dest => copy loc (src.rename ρ) (dest.rename ρ)
  | alloc t => alloc (t.rename ρ)
  | release t => release (t.rename ρ)
  | branch _ label => branch loc (label.rename ρ)
  | branchIf _ cond test label => branchIf loc (cond.rename ρ) test (label.rename ρ)
  | place label => place (label.rename ρ)
  | typeIs _ expr type result => typeIs loc (expr.rename ρ) type (result.rename ρ)
  | ret _ value => ret loc (value.rename ρ)
  | forInit _ collection item => forInit loc (collection.rename ρ) (item.rename ρ)
  | forClose _ => forClose loc
  | op _ opcode args => op loc opcode (args.map (Arg.rename ρ))

/-- The program with new names, and a new position for each instruction by its number. -/
def Program.rename (loc : Nat → Position) (p : Program) : Program :=
  ⟨p.instrs.mapIdx fun k i => i.rename ρ (loc k)⟩

/-- The field with new names, in an instruction at `loc`. -/
def Field.rename (loc : Position) : Field → Field
  | slot s => slot (s.rename ρ)
  | word w => word w
  | located _ w => located loc w
  | jump label => jump (label.rename ρ)

/-- The fixup with the new name of its label. -/
def Fixup.rename (f : Fixup) : Fixup :=
  { f with label := f.label.rename ρ }

/-- The loop with the new name of its variable. -/
def Loop.rename (l : Loop) : Loop :=
  { l with item := l.item.rename ρ }

variable {ρ}

theorem Temp.id_rename_eq_iff {t u : Temp} : (t.rename ρ).id = (u.rename ρ).id ↔ t.id = u.id :=
  ρ.temp_injective.eq_iff

theorem Label.rename_eq_iff {l m : Label} : l.rename ρ = m.rename ρ ↔ l = m := by
  cases l
  cases m
  simp only [rename, mk.injEq, ρ.label_injective.eq_iff]

theorem Arg.field_rename (loc : Position) (a : Arg) :
    (a.rename ρ).field = a.field.rename ρ loc := by
  cases a <;> rfl

/-! ## Faults under new names -/

/-- The fault names no temporary and no label. -/
def Fault.isNameless : Fault → Bool
  | unresolvedSlot _ | slotAllocatedTwice _ | slotReleased _ | releaseOfUnallocated _ => false
  | labelPlacedTwice _ | unresolvedJump .. | backwardJump _ => false
  | _ => true

/-- The same fault, with the new name of the temporary or label that it names. -/
inductive Fault.Renamed (ρ : Renaming) : Fault → Fault → Prop where
  | unresolvedSlot (t : Temp) :
      Renamed ρ (.unresolvedSlot t.text) (.unresolvedSlot (t.rename ρ).text)
  | slotAllocatedTwice (t : Temp) :
      Renamed ρ (.slotAllocatedTwice t.text) (.slotAllocatedTwice (t.rename ρ).text)
  | slotReleased (t : Temp) : Renamed ρ (.slotReleased t.text) (.slotReleased (t.rename ρ).text)
  | releaseOfUnallocated (t : Temp) :
      Renamed ρ (.releaseOfUnallocated t.text) (.releaseOfUnallocated (t.rename ρ).text)
  | labelPlacedTwice (l : Label) :
      Renamed ρ (.labelPlacedTwice l.text) (.labelPlacedTwice (l.rename ρ).text)
  | unresolvedJump (l : Label) (branch : Nat) :
      Renamed ρ (.unresolvedJump l.text branch) (.unresolvedJump (l.rename ρ).text branch)
  | backwardJump (l : Label) : Renamed ρ (.backwardJump l.text) (.backwardJump (l.rename ρ).text)
  | nameless {fault : Fault} (h : fault.isNameless) : Renamed ρ fault fault

/-- Both computations succeed, with results that `R` relates, or both fail with the same fault. -/
inductive Agree (ρ : Renaming) {α β : Type} (R : α → β → Prop) :
    Except Fault α → Except Fault β → Prop where
  | ok {a : α} {b : β} (h : R a b) : Agree ρ R (.ok a) (.ok b)
  | error {f g : Fault} (h : f.Renamed ρ g) : Agree ρ R (.error f) (.error g)

theorem Agree.bind {α β α' β' : Type} {R : α → β → Prop} {S : α' → β' → Prop}
    {x : Except Fault α} {y : Except Fault β} {f : α → Except Fault α'} {g : β → Except Fault β'}
    (h : Agree ρ R x y) (hfg : ∀ a b, R a b → Agree ρ S (f a) (g b)) :
    Agree ρ S (x >>= f) (y >>= g) := by
  cases h with
  | ok h => exact hfg _ _ h
  | error h => exact .error h

theorem agree_operand (kind : Kind) (index : UInt32) :
    Agree ρ Eq (operand kind index) (operand kind index) := by
  unfold operand
  split
  · exact .ok rfl
  · exact .error (.nameless rfl)

/-! ## Frames -/

namespace Frame

variable {f g : Frame}

/-- The frames are the same, but for the names of temporaries. -/
structure Alike (ρ : Renaming) (f g : Frame) : Prop where
  binding? : ∀ t : Temp, g.binding? (t.rename ρ) = f.binding? t
  cells : g.cells = f.cells
  highWater : g.highWater = f.highWater

theorem Alike.nextFree (h : Alike ρ f g) : g.nextFree = f.nextFree := by
  rw [Frame.nextFree, h.cells, Frame.nextFree]

theorem Alike.resolve (h : Alike ρ f g) (t : Temp) :
    Agree ρ Eq (f.resolve t) (g.resolve (t.rename ρ)) := by
  rw [Frame.resolve, Frame.resolve, h.binding? t]
  split
  · exact .ok rfl
  · exact .error (.slotReleased t)
  · exact .error (.unresolvedSlot t)

theorem Alike.allocated (h : Alike ρ f g) (t : Temp) :
    Alike ρ (f.allocated t) (g.allocated (t.rename ρ)) := by
  refine ⟨fun u => ?_, ?_, ?_⟩
  · simp only [binding?_allocated, Temp.id_rename_eq_iff, h.binding? u, h.nextFree]
  · simp only [Frame.allocated, h.cells]
  · simp only [Frame.allocated, h.highWater, h.nextFree]

theorem Alike.released (h : Alike ρ f g) {t : Temp} {r : UInt32}
    (ht : f.binding? t = some (.live r)) :
    Alike ρ (f.released t r) (g.released (t.rename ρ) r) := by
  have ht' : g.binding? (t.rename ρ) = some (.live r) := (h.binding? t).trans ht
  refine ⟨fun u => ?_, ?_, h.highWater⟩
  · rw [binding?_released _ _ _ ht', binding?_released _ _ _ ht, h.binding? u]
    simp only [Temp.id_rename_eq_iff]
  · simp only [Frame.released, h.cells]

theorem Alike.alloc (h : Alike ρ f g) (t : Temp) :
    Agree ρ Eq (f.alloc t).1 (g.alloc (t.rename ρ)).1 ∧
      Alike ρ (f.alloc t).2 (g.alloc (t.rename ρ)).2 := by
  by_cases ht : f.binding? t = none
  · rw [alloc_of_none ht, alloc_of_none ((h.binding? t).trans ht), h.nextFree]
    exact ⟨.ok rfl, h.allocated t⟩
  · rw [alloc_of_ne_none ht, alloc_of_ne_none (h.binding? t ▸ ht)]
    exact ⟨.error (.slotAllocatedTwice t), h⟩

theorem Alike.release (h : Alike ρ f g) (t : Temp) :
    Agree ρ Eq (f.release t).1 (g.release (t.rename ρ)).1 ∧
      Alike ρ (f.release t).2 (g.release (t.rename ρ)).2 := by
  cases ht : f.binding? t with
  | none =>
    rw [release_of_none ht, release_of_none ((h.binding? t).trans ht)]
    exact ⟨.error (.releaseOfUnallocated t), h⟩
  | some b =>
    cases b with
    | released =>
      rw [release_of_released ht, release_of_released ((h.binding? t).trans ht)]
      exact ⟨.error (.slotReleased t), h⟩
    | live r =>
      rw [release_of_live ht, release_of_live ((h.binding? t).trans ht)]
      exact ⟨.ok rfl, h.released ht⟩

end Frame

/-! ## Jumps -/

namespace Jumps

variable {i j : Jumps}

/-- The jumps are the same, but for the names of labels and of loop variables. -/
structure Alike (ρ : Renaming) (i j : Jumps) : Prop where
  address? : ∀ l : Label, j.address? (l.rename ρ) = i.address? l
  fixups : j.fixups = i.fixups.map (Fixup.rename ρ)
  loops : j.loops = i.loops.map (Loop.rename ρ)

theorem Alike.await (h : Alike ρ i j) (l : Label) (offset branch : Nat) :
    Agree ρ (Alike ρ) (i.await l offset branch) (j.await (l.rename ρ) offset branch) := by
  rw [Jumps.await, Jumps.await, h.address? l]
  split
  · exact .error (.backwardJump l)
  · refine .ok ⟨h.address?, ?_, h.loops⟩
    simp only [h.fixups, List.map_append]
    rfl

theorem Alike.place (h : Alike ρ i j) (l : Label) (address : UInt32) :
    Agree ρ (Alike ρ) (i.place l address) (j.place (l.rename ρ) address) := by
  rw [Jumps.place, Jumps.place, h.address? l]
  split
  · exact .error (.labelPlacedTwice l)
  · refine .ok ⟨fun m => ?_, h.fixups, h.loops⟩
    have hm := h.address? m
    simp only [Jumps.address?, List.lookup_cons] at hm ⊢
    by_cases hml : m = l
    · simp [hml]
    · have hne : m.rename ρ ≠ l.rename ρ := fun heq => hml (Label.rename_eq_iff.1 heq)
      rw [beq_false_of_ne hml, beq_false_of_ne hne]
      exact hm

theorem Alike.enter (h : Alike ρ i j) (l : Loop) : Alike ρ (i.enter l) (j.enter (l.rename ρ)) :=
  ⟨h.address?, h.fixups, congrArg (l.rename ρ :: ·) h.loops⟩

theorem Alike.leave (h : Alike ρ i j) :
    Agree ρ (fun a b => Alike ρ a.1 b.1 ∧ b.2 = a.2.rename ρ) i.leave j.leave := by
  rw [Jumps.leave, Jumps.leave, h.loops]
  cases i.loops with
  | nil => exact .error (.nameless rfl)
  | cons l loops => exact .ok ⟨⟨h.address?, h.fixups, rfl⟩, rfl⟩

/-- The words that wait for labels get the same addresses. -/
theorem Alike.resolve (h : Alike ρ i j) : Agree ρ Eq i.resolve j.resolve := by
  rw [Jumps.resolve, Jumps.resolve, h.fixups]
  generalize i.fixups = fixups
  induction fixups with
  | nil => exact .ok rfl
  | cons f fixups ih =>
    rw [List.map_cons, List.mapM_cons, List.mapM_cons]
    refine Agree.bind (R := Eq) ?_ fun patch _ hpatch => ih.bind fun patches _ hpatches => ?_
    · have haddress : j.address? (f.rename ρ).label = i.address? f.label := h.address? f.label
      rw [haddress]
      split
      · exact .ok rfl
      · exact .error (.unresolvedJump f.label f.branch)
    · rw [hpatch, hpatches]
      exact .ok rfl

end Jumps

/-! ## Code -/

namespace Code

variable {c d : Code}

/-- The codes are the same, but for positions. -/
structure Alike (c d : Code) : Prop where
  words : d.words = c.words
  constants : d.constants = c.constants
  frameSize : d.frameSize = c.frameSize

theorem Alike.size (h : Alike c d) : d.size = c.size :=
  congrArg Array.size h.words

theorem Alike.push (h : Alike c d) (w : UInt32) (loc loc' : Position) :
    Alike (c.push w loc) (d.push w loc') :=
  { h with words := congrArg (Array.push · w) h.words }

theorem Alike.patch (h : Alike c d) (offset : Nat) (w : UInt32) :
    Alike (c.patch offset w) (d.patch offset w) :=
  { h with words := congrArg (Array.setIfInBounds · offset w) h.words }

theorem Alike.patchAll (h : Alike c d) (patches : List (Nat × UInt32)) :
    Alike (c.patchAll patches) (d.patchAll patches) := by
  induction patches generalizing c d with
  | nil => exact h
  | cons patch patches ih => exact ih (h.patch patch.1 patch.2)

end Code

/-! ## Passes -/

/-- An instruction that is being written, without its position. -/
def Underway.unlocated (u : Underway) : Opcode × Nat :=
  (u.opcode, u.start)

namespace Pass

variable {p q : Pass} {k : Nat} {loc loc' : Position}

/-- The passes are the same, but for names and positions. -/
structure Alike (ρ : Renaming) (p q : Pass) : Prop where
  fixedLocals : q.fixedLocals = p.fixedLocals
  code : p.code.Alike q.code
  frame : p.frame.Alike ρ q.frame
  jumps : p.jumps.Alike ρ q.jumps
  current : q.current.map Underway.unlocated = p.current.map Underway.unlocated
  accounted : q.accounted = p.accounted
  maxLocal : q.maxLocal = p.maxLocal

theorem alike_start (ρ : Renaming) (n : UInt32) :
    Alike ρ { fixedLocals := n } { fixedLocals := n } :=
  ⟨rfl, ⟨rfl, rfl, rfl⟩, ⟨fun _ => rfl, rfl, rfl⟩, ⟨fun _ => rfl, rfl, rfl⟩, rfl, rfl, rfl⟩

theorem Alike.offset (h : Alike ρ p q) : q.offset = p.offset :=
  h.code.size

theorem Alike.withCode (h : Alike ρ p q) {c d : Code} (hcode : c.Alike d) :
    Alike ρ { p with code := c } { q with code := d } :=
  { h with code := hcode }

theorem Alike.withJumps (h : Alike ρ p q) {i j : Jumps} (hjumps : i.Alike ρ j) :
    Alike ρ { p with jumps := i } { q with jumps := j } :=
  { h with jumps := hjumps }

theorem Alike.push (h : Alike ρ p q) (w : UInt32) : Alike ρ (p.push loc w) (q.push loc' w) :=
  h.withCode (h.code.push w loc loc')

theorem Alike.frameIndex (h : Alike ρ p q) (v : Var) :
    Agree ρ Eq (p.frameIndex v) (q.frameIndex (v.rename ρ)) := by
  cases v with
  | fixed l =>
    rw [Var.rename, Pass.frameIndex, Pass.frameIndex, h.fixedLocals]
    split
    · exact .ok rfl
    · exact .error (.nameless rfl)
  | temp t =>
    refine (h.frame.resolve t).bind fun cell _ hcell => ?_
    rw [← hcell, h.fixedLocals]
    split
    · exact .ok rfl
    · exact .error (.nameless rfl)

theorem Alike.writeSlot (h : Alike ρ p q) (s : Slot) :
    Agree ρ (Alike ρ) (p.writeSlot s) (q.writeSlot (s.rename ρ)) := by
  cases s with
  | var v =>
    refine (h.frameIndex v).bind fun index _ hindex => ?_
    rw [← hindex]
    refine (agree_operand _ _).bind fun o _ ho => ?_
    rw [← ho, h.maxLocal]
    have halike (m : Option UInt32) : Alike ρ { p with maxLocal := m } { q with maxLocal := m } :=
      { h with maxLocal := rfl }
    exact .ok ((halike _).push _)
  | const c =>
    simp only [Slot.rename, Pass.writeSlot, h.code.constants]
    refine (agree_operand _ _).bind fun o _ ho => ?_
    rw [← ho]
    have hcode (pool : Pool) :
        Code.Alike { p.code with constants := pool } { q.code with constants := pool } :=
      { h.code with constants := rfl }
    exact .ok ((h.withCode (hcode _)).push _)
  | global index | cell index | free index =>
    refine (agree_operand _ _).bind fun o _ ho => ?_
    rw [← ho]
    exact .ok (h.push _)

theorem Alike.writeField (h : Alike ρ p q) (loc : Position) (d : Field) :
    Agree ρ (Alike ρ) (p.writeField k d) (q.writeField k (d.rename ρ loc)) := by
  cases d with
  | slot s => exact h.writeSlot s
  | word w | located _ w => exact .ok (h.push w)
  | jump label =>
    rw [Field.rename, Pass.writeField, Pass.writeField, h.offset]
    exact (h.jumps.await label p.offset k).bind fun _ _ hjumps =>
      .ok ((h.withJumps hjumps).push _)

theorem Alike.writeFields (h : Alike ρ p q) (loc : Position) (ds : List Field) :
    Agree ρ (Alike ρ) (ds.foldlM (Pass.writeField k) p)
      ((ds.map (Field.rename ρ loc)).foldlM (Pass.writeField k) q) := by
  induction ds generalizing p q with
  | nil => exact .ok h
  | cons d ds ih =>
    rw [List.map_cons, List.foldlM_cons, List.foldlM_cons]
    exact (h.writeField loc d).bind fun _ _ h => ih h

theorem Alike.start (h : Alike ρ p q) (op : Opcode) :
    Alike ρ (p.start loc op) (q.start loc' op) := by
  have halike : Alike ρ { p with current := some ⟨op, p.offset, loc⟩ }
      { q with current := some ⟨op, p.offset, loc'⟩ } :=
    { h with current := rfl }
  rw [Pass.start, Pass.start, h.offset]
  exact halike.push _

theorem Alike.stop (h : Alike ρ p q) : Agree ρ (Alike ρ) p.stop q.stop := by
  cases hp : p.current with
  | none =>
    have hq : q.current = none := Option.map_eq_none_iff.1 (h.current.trans (by rw [hp]; rfl))
    simp only [Pass.stop, hp, hq]
    exact .ok h
  | some u =>
    obtain ⟨⟨op, start, loc'⟩, hq, hu⟩ :=
      Option.map_eq_some_iff.1 (h.current.trans (by rw [hp]; rfl))
    obtain ⟨rfl, rfl⟩ := Prod.mk.inj hu
    simp only [Pass.stop, hp, hq, h.offset, h.accounted]
    split
    · exact .ok { h with current := rfl, accounted := rfl }
    · exact .error (.nameless rfl)

theorem Alike.emit (h : Alike ρ p q) (op : Opcode) (ds : List Field) :
    Agree ρ (Alike ρ) (p.emit k loc op ds) (q.emit k loc' op (ds.map (Field.rename ρ loc'))) :=
  ((h.start op).writeFields loc' ds).bind fun _ _ h => h.stop

theorem Alike.openLoop (h : Alike ρ p q) (collection : Slot) (item : Var) :
    Agree ρ (Alike ρ) (p.openLoop k loc collection item)
      (q.openLoop k loc' (collection.rename ρ) (item.rename ρ)) := by
  rw [Pass.openLoop, Pass.openLoop, h.offset]
  refine (h.emit .forInit [.slot collection, .slot (.var item), .located loc pending]).bind
    fun a b h => ?_
  rw [h.offset]
  exact .ok { h with jumps := h.jumps.enter ⟨item, _, _⟩ }

theorem Alike.closeLoop (h : Alike ρ p q) :
    Agree ρ (Alike ρ) (p.closeLoop k loc) (q.closeLoop k loc') := by
  refine h.jumps.leave.bind ?_
  rintro ⟨i, l⟩ ⟨j, l'⟩ ⟨hjumps, hloop⟩
  obtain rfl : l' = l.rename ρ := hloop
  refine ((h.withJumps hjumps).emit .forNext [.slot (.var l.item), .located loc l.body]).bind ?_
  intro a b h
  rw [h.offset]
  exact .ok (h.withCode (h.code.patch _ _))

theorem Alike.writeOp (h : Alike ρ p q) (op : Opcode) (args : List Arg) :
    Agree ρ (Alike ρ) (p.writeOp k loc op args)
      (q.writeOp k loc' op (args.map (Arg.rename ρ))) := by
  rw [Pass.writeOp, Pass.writeOp, List.length_map]
  split
  · exact .error (.nameless rfl)
  · split
    · exact .error (.nameless rfl)
    · have hfields : (args.map (Arg.rename ρ)).map Arg.field =
          (args.map Arg.field).map (Field.rename ρ loc') := by
        simp only [List.map_map, Function.comp_def, Arg.field_rename loc']
      rw [hfields]
      exact h.emit op _

/-- A step keeps the passes alike, or fails in both for the same reason. -/
theorem Alike.step (h : Alike ρ p q) (k : Nat) (loc : Position) (i : Instr) :
    Agree ρ (fun a b => Alike ρ a.1 b.1) (p.step k i) (q.step k (i.rename ρ loc)) := by
  cases i with
  | alloc t =>
    obtain ⟨houtcome, hframe⟩ := h.frame.alloc t
    exact houtcome.bind fun _ _ _ => .ok { h with frame := hframe }
  | release t =>
    obtain ⟨houtcome, hframe⟩ := h.frame.release t
    exact houtcome.bind fun _ _ _ => .ok { h with frame := hframe }
  | place label =>
    rw [Instr.rename, Pass.step, Pass.step, h.offset]
    exact (h.jumps.place label _).bind fun _ _ hjumps => .ok (h.withJumps hjumps)
  | copy _ src dest =>
    exact (h.emit .copy [.slot src, .slot (.var dest)]).bind fun _ _ h => .ok h
  | branch _ label => exact (h.emit .branch [.jump label]).bind fun _ _ h => .ok h
  | branchIf _ cond test label =>
    exact (h.emit test.opcode [.slot (.var cond), .jump label]).bind fun _ _ h => .ok h
  | typeIs _ expr type result =>
    exact (h.emit .typeIs [.slot expr, .slot (.const (.str type)), .slot (.var result)]).bind
      fun _ _ h => .ok h
  | ret _ value => exact (h.emit .ret [.slot value]).bind fun _ _ h => .ok h
  | forInit _ collection item => exact (h.openLoop collection item).bind fun _ _ h => .ok h
  | forClose _ => exact h.closeLoop.bind fun _ _ h => .ok h
  | op _ opcode args => exact (h.writeOp opcode args).bind fun _ _ h => .ok h

/-- Runs over a program and over the renamed one end alike, or stop at the same instruction. -/
theorem Alike.run (h : Alike ρ p q) (k : Nat) (is : List Instr) (loc : Nat → Position) :
    (∃ p' q', (p.run k is).2 = .ok p' ∧
      (q.run k (is.mapIdx fun j i => i.rename ρ (loc j))).2 = .ok q' ∧ Alike ρ p' q') ∨
    ∃ j f g, (p.run k is).2 = .error (j, f) ∧
      (q.run k (is.mapIdx fun j i => i.rename ρ (loc j))).2 = .error (j, g) ∧ f.Renamed ρ g := by
  induction is generalizing p q k loc with
  | nil => exact .inl ⟨p, q, rfl, rfl, h⟩
  | cons i is ih =>
    have hstep := h.step k (loc 0) i
    rw [List.mapIdx_cons, Pass.run, Pass.run]
    generalize p.step k i = x at hstep ⊢
    generalize q.step k (i.rename ρ (loc 0)) = y at hstep ⊢
    cases hstep with
    | error hfault => exact .inr ⟨k, _, _, rfl, rfl, hfault⟩
    | ok h => exact ih h (k + 1) fun j => loc (j + 1)

theorem Alike.check (h : Alike ρ p q) : Agree ρ Eq p.check q.check := by
  have hopen : q.jumps.loops ≠ [] ↔ p.jumps.loops ≠ [] := by
    rw [h.jumps.loops, ne_eq, List.map_eq_nil_iff]
  have hlength : q.jumps.loops.length = p.jumps.loops.length := by
    rw [h.jumps.loops, List.length_map]
  have heq : q.check = p.check := by
    simp only [Pass.check, hopen, hlength, h.accounted, h.code.size, h.fixedLocals,
      h.frame.highWater, h.maxLocal]
  rw [heq, Pass.check]
  split
  · exact .error (.nameless rfl)
  · split
    · exact .error (.nameless rfl)
    · split
      · exact .error (.nameless rfl)
      · split
        · split
          · exact .error (.nameless rfl)
          · exact .ok rfl
        · exact .ok rfl

theorem Alike.finish (h : Alike ρ p q) : Agree ρ Code.Alike p.finish.2 q.finish.2 := by
  have hresolve := h.jumps.resolve
  unfold Pass.finish
  generalize p.jumps.resolve = x at hresolve ⊢
  generalize q.jumps.resolve = y at hresolve ⊢
  cases hresolve with
  | error hfault => exact .error hfault
  | @ok patches _ heq =>
    rw [← heq]
    refine h.check.bind fun frameSize _ hsize => .ok ?_
    exact { h.code.patchAll patches with frameSize := hsize.symm }

end Pass

/-! ## Programs -/

/-- Two programs that differ by names and positions have alike codes, or the same fault under the
new names. -/
inductive SameOutcome (ρ : Renaming) (p q : Program) :
    Except Failure Code → Except Failure Code → Prop where
  | ok {c d : Code} (h : c.Alike d) : SameOutcome ρ p q (.ok c) (.ok d)
  | instruction {k : Nat} {f g : Fault} (h : f.Renamed ρ g) :
      SameOutcome ρ p q (.error (.instruction k p.text f)) (.error (.instruction k q.text g))
  | finalize {f g : Fault} (h : f.Renamed ρ g) :
      SameOutcome ρ p q (.error (.finalize p.text f)) (.error (.finalize q.text g))

namespace Program

variable {p q : Program}

theorem sameOutcome_failure {f g : Fault} (h : f.Renamed ρ g) :
    SameOutcome ρ p q (.error (p.failure f)) (.error (q.failure g)) := by
  cases h with
  | unresolvedJump l branch => exact .instruction (.unresolvedJump l branch)
  | nameless h => cases f <;> first | exact .finalize (.nameless h) | cases h
  | unresolvedSlot t => exact .finalize (.unresolvedSlot t)
  | slotAllocatedTwice t => exact .finalize (.slotAllocatedTwice t)
  | slotReleased t => exact .finalize (.slotReleased t)
  | releaseOfUnallocated t => exact .finalize (.releaseOfUnallocated t)
  | labelPlacedTwice l => exact .finalize (.labelPlacedTwice l)
  | backwardJump l => exact .finalize (.backwardJump l)

/-- A program under new names and positions has the same outcome. -/
theorem sameOutcome_rename (p : Program) (n : UInt32) (ρ : Renaming) (loc : Nat → Position) :
    SameOutcome ρ p (p.rename ρ loc) (p.lower n).result ((p.rename ρ loc).lower n).result := by
  rcases (Pass.alike_start ρ n).run 0 p.instrs loc with ⟨a, b, ha, hb, h⟩ | ⟨k, f, g, hf, hg, h⟩
  · rw [result_of_reaches (Pass.reaches_iff_run.2 ha),
      result_of_reaches (p := p.rename ρ loc) (Pass.reaches_iff_run.2 hb)]
    have hfinish := h.finish
    generalize a.finish.2 = x at hfinish ⊢
    generalize b.finish.2 = y at hfinish ⊢
    cases hfinish with
    | ok h => exact .ok h
    | error h => exact sameOutcome_failure h
  · rw [(failsAt_iff_run.2 hf).lower_eq, FailsAt.lower_eq (p := p.rename ρ loc)
      (failsAt_iff_run.2 hg)]
    exact .instruction h

/-- Shifts the numbers, and gives one name to all temporaries. -/
def shift : Renaming where
  temp := (· + 5)
  name _ := "t"
  label := (· + 9)
  temp_injective _ _ h := by simpa using h
  label_injective _ _ h := by simpa using h

/-- `searchLoop` with shifted numbers and each instruction on a line of its own. -/
def shiftedLoop : Program :=
  searchLoop.rename shift fun k => .ofLine k.toUInt32

/-- It has the code of `searchLoop`, but for positions. -/
theorem sameOutcome_shiftedLoop :
    shiftedLoop ≠ searchLoop ∧
      ∃ code, (shiftedLoop.lower 2).result = .ok code ∧ searchCode.Alike code := by
  have h : SameOutcome shift searchLoop shiftedLoop (searchLoop.lower 2).result
      (shiftedLoop.lower 2).result :=
    sameOutcome_rename searchLoop 2 shift fun k => .ofLine k.toUInt32
  rw [lower_searchLoop] at h
  refine ⟨by decide, ?_⟩
  cases hlower : (shiftedLoop.lower 2).result with
  | error e =>
    rw [hlower] at h
    cases h
  | ok code =>
    rw [hlower] at h
    cases h with
    | ok h => exact ⟨code, rfl, h⟩

end Program

end Assembler
