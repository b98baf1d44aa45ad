import Assembler.Proofs.Faults
import Assembler.Proofs.Joining
import Assembler.Proofs.Wrapping

/-!
# Directives that change no code

A label that no branch waits for leaves no trace in the code, labels placed together may be placed
in any order, and a temporary that is released as soon as it is allocated can only raise the
high-water mark of the frame (`Program.lower_directives`). The mark is a word, and nothing checks
that it is not raised beyond the largest one: a frame without fixed locals seems to have room for
`2 ^ 32` cells (`Program.lower_insertAt_crowd`).

Such a change leaves a pass that is `Similar` to the one without it: the two have the same code and
the same cells in use, and agree on the temporaries and labels that the rest of the program may name
(its `Scope`). Every step keeps this (`Pass.Similar.stepped`), whatever number the instruction has.
-/

namespace Assembler

/-! ## Scopes -/

/-- The temporaries and labels that instructions may name. -/
structure Scope where
  temp : Temp → Prop
  label : Label → Prop

/-- The instruction names nothing outside the scope. -/
structure Instr.Within (s : Scope) (i : Instr) : Prop where
  temps : ∀ t ∈ i.temps, s.temp t
  labels : ∀ label ∈ i.labels, s.label label

namespace Scope

/-- All temporaries and labels. -/
def all : Scope :=
  ⟨fun _ => True, fun _ => True⟩

/-- All but one label. -/
def exceptLabel (label : Label) : Scope :=
  ⟨fun _ => True, (· ≠ label)⟩

/-- All but one temporary, whatever its name. -/
def exceptTemp (x : Temp) : Scope :=
  ⟨(·.id ≠ x.id), fun _ => True⟩

end Scope

theorem Instr.within_all (i : Instr) : i.Within .all :=
  ⟨fun _ _ => trivial, fun _ _ => trivial⟩

theorem Instr.within_exceptLabel {label : Label} {is : List Instr}
    (h : label ∉ is.flatMap Instr.labels) : ∀ i ∈ is, i.Within (.exceptLabel label) := by
  refine fun i hi => ⟨fun _ _ => trivial, fun l hl heq => h ?_⟩
  exact List.mem_flatMap.2 ⟨i, hi, heq ▸ hl⟩

theorem Instr.within_exceptTemp {x : Temp} {is : List Instr}
    (h : ∀ t ∈ is.flatMap Instr.temps, t.id ≠ x.id) : ∀ i ∈ is, i.Within (.exceptTemp x) :=
  fun i hi => ⟨fun t ht => h t (List.mem_flatMap.2 ⟨i, hi, ht⟩), fun _ _ => trivial⟩

/-- The field stands for nothing outside the scope. -/
def Field.Within (s : Scope) : Field → Prop
  | slot (.var (.temp t)) => s.temp t
  | jump label => s.label label
  | _ => True

variable {s : Scope} {b : Nat}

/-- The fields of an instruction stand for what it names, and for the variable of the loop that it
closes. -/
theorem Instr.Within.field {i : Instr} (h : i.Within s) (loc : Position) {l : Loop}
    (hl : ∀ loc, i = .forClose loc → (Field.slot (.var l.item)).Within s) {d : Field}
    (hd : d ∈ i.roles.map (Role.field loc l)) : d.Within s := by
  obtain ⟨role, hrole, rfl⟩ := List.mem_map.1 hd
  cases role with
  | slot sl =>
    cases sl with
    | var v =>
      cases v with
      | fixed l => trivial
      | temp t => exact h.temps t (Instr.mem_temps_of_mem_roles hrole)
    | _ => trivial
  | target label =>
    exact h.labels label (Instr.mem_labels_of_target? (Instr.target?_eq_some_iff.2 hrole))
  | loopItem =>
    obtain ⟨loc, rfl⟩ := eq_forClose_of_mem_roles (Or.inl hrole)
    exact hl loc rfl
  | _ => trivial

/-- The variable of a loop is one that its opening names. -/
theorem Instr.Within.item {loc : Position} {collection : Slot} {item : Var}
    (h : (Instr.forInit loc collection item).Within s) : (Field.slot (.var item)).Within s :=
  h.field loc (l := default) (fun _ hclose => Instr.noConfusion hclose)
    (List.mem_cons_of_mem _ List.mem_cons_self)

theorem item_within_of_mem_openLoops {is : List Instr} (his : ∀ i ∈ is, i.Within s) {e : Opened}
    (he : e ∈ openLoops is) : (Field.slot (.var e.item)).Within s := by
  induction is using List.reverseRecOn with
  | nil => cases he
  | append_singleton is i ih =>
    have ih := ih fun j hj => his j (List.mem_append_left _ hj)
    have hi := his i (List.mem_append_right _ List.mem_cons_self)
    rw [openLoops_append_singleton] at he
    cases i with
    | forInit loc collection item =>
      rcases List.mem_cons.1 he with rfl | he
      · exact hi.item
      · exact ih he
    | forClose loc => exact ih (List.mem_of_mem_tail he)
    | _ => exact ih he

/-! ## Frames -/

namespace Frame

variable {f g : Frame}

/-- The frames have the same cells in use and agree on the temporaries in the scope. The second has
also been `b` cells high. -/
structure Similar (s : Scope) (b : Nat) (f g : Frame) : Prop where
  binding? : ∀ {t}, s.temp t → g.binding? t = f.binding? t
  cells : g.cells = f.cells
  highWater : g.highWater.toNat = max f.highWater.toNat b

theorem Similar.refl (s : Scope) (f : Frame) : f.Similar s 0 f :=
  ⟨fun _ => rfl, rfl, (Nat.max_zero _).symm⟩

theorem Similar.nextFree (h : f.Similar s b g) : g.nextFree = f.nextFree := by
  rw [Frame.nextFree, h.cells, Frame.nextFree]

theorem Similar.place? (h : f.Similar s b g) {sl : Slot} (hsl : (Field.slot sl).Within s)
    (n : UInt32) (pool : Pool) : sl.place? n g pool = sl.place? n f pool := by
  cases sl with
  | var v =>
    cases v with
    | fixed l => rfl
    | temp t => simp only [Slot.place?, Var.index?, cell?, h.binding? hsl]
  | _ => rfl

theorem Similar.allocated (h : f.Similar s b g) (t : Temp) :
    (f.allocated t).Similar s b (g.allocated t) := by
  refine ⟨fun {u} hu => ?_, ?_, ?_⟩
  · rw [binding?_allocated, binding?_allocated, h.binding? hu, h.nextFree]
  · simp only [Frame.allocated, h.cells]
  · simp only [Frame.allocated, toNat_max, h.highWater, h.nextFree]
    exact Nat.max_right_comm _ _ _

theorem Similar.released (h : f.Similar s b g) {t : Temp} (hs : s.temp t) {r : UInt32}
    (ht : f.binding? t = some (.live r)) : (f.released t r).Similar s b (g.released t r) := by
  refine ⟨fun {u} hu => ?_, ?_, h.highWater⟩
  · rw [binding?_released _ _ _ ht, binding?_released _ _ _ ((h.binding? hs).trans ht),
      h.binding? hu]
  · simp only [Frame.released, h.cells]

end Frame

/-! ## Jumps -/

/-- The two are one address word, which waits for one label in the scope. The branches may have
different numbers. -/
structure Fixup.Similar (s : Scope) (f g : Fixup) : Prop where
  offset : g.offset = f.offset
  label : g.label = f.label
  within : s.label f.label

namespace Jumps

variable {i j : Jumps}

/-- The same words wait for the same labels, the loops are the same, and both agree on the labels in
the scope. Nothing outside the scope is waited for. -/
structure Similar (s : Scope) (i j : Jumps) : Prop where
  address? : ∀ {label}, s.label label → j.address? label = i.address? label
  fixups : List.Forall₂ (Fixup.Similar s) i.fixups j.fixups
  loops : j.loops = i.loops
  items : ∀ l ∈ i.loops, (Field.slot (.var l.item)).Within s

theorem Similar.await (h : i.Similar s j) {label : Label} (hs : s.label label) (offset k k' : Nat) :
    Similar s { i with fixups := i.fixups ++ [⟨offset, label, k⟩] }
      { j with fixups := j.fixups ++ [⟨offset, label, k'⟩] } where
  address? := h.address?
  fixups := List.rel_append h.fixups (.cons ⟨rfl, rfl, hs⟩ .nil)
  loops := h.loops
  items := h.items

theorem Similar.withPlaced (h : i.Similar s j) {ps qs : List (Label × UInt32)}
    (hplaced : ∀ {label}, s.label label → qs.lookup label = ps.lookup label) :
    Similar s { i with placed := ps } { j with placed := qs } :=
  ⟨hplaced, h.fixups, h.loops, h.items⟩

theorem Similar.place (h : i.Similar s j) (label : Label) (address : UInt32) :
    Similar s { i with placed := (label, address) :: i.placed }
      { j with placed := (label, address) :: j.placed } := by
  refine h.withPlaced fun {label'} hs => ?_
  have hrest : j.placed.lookup label' = i.placed.lookup label' := h.address? hs
  rw [List.lookup_cons, List.lookup_cons, hrest]

theorem Similar.withLoops (h : i.Similar s j) {loops : List Loop}
    (hloops : ∀ l ∈ loops, (Field.slot (.var l.item)).Within s) :
    Similar s { i with loops } { j with loops } :=
  ⟨h.address?, h.fixups, rfl, hloops⟩

/-- The words that wait get the same addresses. -/
theorem Similar.resolve (h : i.Similar s j) {patches : List (Nat × UInt32)}
    (hres : i.resolve = .ok patches) : j.resolve = .ok patches := by
  rw [Pass.resolve_eq_ok_iff] at hres ⊢
  have hfixups := h.fixups
  generalize i.fixups = fixups, j.fixups = fixups' at hres hfixups ⊢
  induction hfixups generalizing patches with
  | nil =>
    cases hres
    exact .nil
  | cons hf _ ih =>
    cases hres with
    | cons hpatch hrest =>
      refine .cons ⟨?_, hpatch.2.trans hf.offset.symm⟩ (ih hrest)
      rw [hf.label, h.address? hf.within]
      exact hpatch.1

end Jumps

/-! ## Passes -/

namespace Pass

variable {n : UInt32} {is is' js : List Instr} {p q r : Pass} {k : Nat} {loc : Position}

/-- The passes are the same but for similar frames and jumps. -/
inductive Similar (s : Scope) (b : Nat) (p : Pass) : Pass → Prop where
  | mk {f : Frame} {j : Jumps} (hframe : p.frame.Similar s b f) (hjumps : p.jumps.Similar s j) :
      Similar s b p { p with frame := f, jumps := j }

theorem Similar.writeField (h : p.Similar s b q) (hfits : p.code.constants.Fits) {d : Field}
    (hd : d.Within s) (hwrite : p.writeField k d = .ok r) (k' : Nat) :
    ∃ r', q.writeField k' d = .ok r' ∧ r.Similar s b r' := by
  obtain @⟨f, j, hframe, hjumps⟩ := h
  cases d with
  | slot sl =>
    obtain ⟨o, ho, rfl⟩ := (writeSlot_eq_ok_iff hfits).1 hwrite
    let q : Pass := { p with frame := f, jumps := j }
    have ho' := (hframe.place? hd p.fixedLocals _).trans ho
    refine ⟨_, (writeSlot_eq_ok_iff (p := q) hfits).2 ⟨o, ho', rfl⟩, ?_⟩
    cases sl <;> exact ⟨hframe, hjumps⟩
  | word w | located loc w =>
    obtain rfl := Except.ok.inj hwrite
    exact ⟨_, rfl, hframe, hjumps⟩
  | jump label =>
    simp only [Pass.writeField, bind_eq_ok_iff, pure_eq_ok_iff, await_eq_ok_iff] at hwrite ⊢
    obtain ⟨_, ⟨hnone, rfl⟩, rfl⟩ := hwrite
    exact ⟨_, ⟨_, ⟨(hjumps.address? hd).trans hnone, rfl⟩, rfl⟩, hframe, hjumps.await hd _ _ _⟩

theorem Similar.foldlM (h : p.Similar s b q) (hfits : p.code.constants.Fits) {ds : List Field}
    (hds : ∀ d ∈ ds, d.Within s) (hwrite : ds.foldlM (Pass.writeField k) p = .ok r) (k' : Nat) :
    ∃ r', ds.foldlM (Pass.writeField k') q = .ok r' ∧ r.Similar s b r' := by
  induction ds generalizing p q with
  | nil =>
    obtain rfl := Except.ok.inj hwrite
    exact ⟨q, rfl, h⟩
  | cons d ds ih =>
    rw [List.foldlM_cons, bind_eq_ok_iff] at hwrite
    obtain ⟨p', hp', hwrite⟩ := hwrite
    obtain ⟨q', hq', h'⟩ := h.writeField hfits (hds d List.mem_cons_self) hp' k'
    obtain ⟨r', hr', hsim⟩ := ih h' (wrote_writeField hfits hp').fits
      (fun e he => hds e (List.mem_cons_of_mem _ he)) hwrite
    exact ⟨r', by rw [List.foldlM_cons, bind_eq_ok_iff]; exact ⟨q', hq', hr'⟩, hsim⟩

theorem Similar.start (h : p.Similar s b q) (loc : Position) (op : Opcode) :
    (p.start loc op).Similar s b (q.start loc op) := by
  obtain ⟨hframe, hjumps⟩ := h
  exact ⟨hframe, hjumps⟩

theorem Similar.ended (h : p.Similar s b q) (op : Opcode) :
    (p.ended op).Similar s b (q.ended op) := by
  obtain ⟨hframe, hjumps⟩ := h
  exact ⟨hframe, hjumps⟩

theorem Similar.loops (h : p.Similar s b q) : q.jumps.loops = p.jumps.loops := by
  obtain ⟨-, hjumps⟩ := h
  exact hjumps.loops

theorem Similar.inner (h : p.Similar s b q) : q.inner = p.inner := by
  rw [Pass.inner, h.loops, Pass.inner]

/-- The variable of the innermost loop is in the scope. -/
theorem Similar.item_within (h : p.Similar s b q) (hne : p.jumps.loops ≠ []) :
    (Field.slot (.var p.inner.item)).Within s := by
  obtain ⟨-, hjumps⟩ := h
  cases hloops : p.jumps.loops with
  | nil => exact absurd hloops hne
  | cons l loops =>
    have hinner : p.inner = l := by rw [Pass.inner, hloops, List.headD_cons]
    rw [hinner]
    exact hjumps.items l (hloops ▸ List.mem_cons_self)

theorem Similar.leave (h : p.Similar s b q) (i : Instr) :
    (p.leave i).Similar s b (q.leave i) := by
  cases i with
  | forClose loc =>
    simp only [Pass.leave, h.loops]
    obtain ⟨hframe, hjumps⟩ := h
    exact ⟨hframe, hjumps.withLoops fun l hl => hjumps.items l (List.mem_of_mem_tail hl)⟩
  | _ => exact h

theorem Similar.settle (h : p.Similar s b q) {r' : Pass} (h' : r.Similar s b r') {i : Instr}
    (hi : i.Within s) : (p.settle r i).Similar s b (q.settle r' i) := by
  cases i with
  | forInit loc collection item =>
    -- both passes were at the same offset before
    obtain ⟨-, -⟩ := h
    obtain ⟨hframe, hjumps⟩ := h'
    refine ⟨hframe, ?_⟩
    simp only [Jumps.enter, hjumps.loops]
    exact hjumps.withLoops (List.forall_mem_cons.2 ⟨hi.item, hjumps.items⟩)
  | forClose loc =>
    simp only [Pass.settle, h.inner]
    obtain ⟨hframe, hjumps⟩ := h'
    exact ⟨hframe, hjumps⟩
  | _ => exact h'

/-- What an instruction does to a pass, it does to a similar one, also under another number. -/
theorem Similar.stepped (h : p.Similar s b q) (hfits : p.code.constants.Fits) {i : Instr}
    (hi : i.Within s) (hstep : Stepped k p i r) (k' : Nat) :
    ∃ r', Stepped k' q i r' ∧ r.Similar s b r' := by
  cases hstep with
  | @alloc t ht =>
    obtain ⟨hframe, hjumps⟩ := h
    have hs := hi.temps t List.mem_cons_self
    exact ⟨_, .alloc ((hframe.binding? hs).trans ht), hframe.allocated t, hjumps⟩
  | @release t index ht =>
    obtain ⟨hframe, hjumps⟩ := h
    have hs := hi.temps t List.mem_cons_self
    exact ⟨_, .release ((hframe.binding? hs).trans ht), hframe.released hs ht, hjumps⟩
  | @place label hlabel =>
    obtain ⟨hframe, hjumps⟩ := h
    have hs := hi.labels label List.mem_cons_self
    exact ⟨_, .place ((hjumps.address? hs).trans hlabel), hframe, hjumps.place label _⟩
  | @write _ op r hop hformed hclose hwrite =>
    have hleave : (p.leave i).code.constants.Fits := by rwa [leave_eq]
    have hfields : ∀ d ∈ i.roles.map (Role.field i.loc p.inner), d.Within s :=
      fun d hd => hi.field i.loc (fun loc hloc => h.item_within (hclose loc hloc)) hd
    obtain ⟨r', hr', hsim⟩ := ((h.leave i).start i.loc op).foldlM hleave hfields hwrite k'
    rw [← h.inner] at hr'
    refine ⟨_, .write hop hformed ?_ hr', h.settle (hsim.ended op) hi⟩
    intro loc hloc
    rw [h.loops]
    exact hclose loc hloc

/-- Whatever a pass comes to over `is`, it comes to something similar over `is'`. -/
def StandsFor (n : UInt32) (s : Scope) (b : Nat) (is' is : List Instr) : Prop :=
  ∀ p, Reaches n is p → ∃ q, Reaches n is' q ∧ p.Similar s b q

theorem StandsFor.append (h : StandsFor n s b is' is) (hjs : ∀ j ∈ js, j.Within s) :
    StandsFor n s b (is' ++ js) (is ++ js) := by
  induction js using List.reverseRecOn with
  | nil => simpa only [List.append_nil] using h
  | append_singleton js j ih =>
    intro p hp
    rw [← List.append_assoc, reaches_append_singleton_iff] at hp
    obtain ⟨r, event, hr, hstep⟩ := hp
    have hfits := hr.ledger.fits
    obtain ⟨r', hr', hsim⟩ := ih (fun i hi => hjs i (List.mem_append_left _ hi)) r hr
    obtain ⟨q, hstepped, hsim⟩ := hsim.stepped hfits
      (hjs j (List.mem_append_right _ List.mem_cons_self)) ((stepped_iff hfits).1 ⟨event, hstep⟩)
      (is' ++ js).length
    obtain ⟨event', hstep'⟩ := (stepped_iff hr'.ledger.fits).2 hstepped
    refine ⟨q, ?_, hsim⟩
    rw [← List.append_assoc]
    exact hr'.snoc hstep'

/-- The end of a pass whose code is right: the frame must have as many cells as the second pass has
used, and nothing else is different. -/
theorem Similar.finish (h : p.Similar s b q) {c : Code} (hfinish : p.finish.2 = .ok c)
    {frameSize : UInt32}
    (hsize : frameSize.toNat = max c.frameSize.toNat (p.fixedLocals.toNat + b)) :
    q.finish.2 = .ok { c with frameSize } := by
  obtain ⟨hframe, hjumps⟩ := h
  obtain ⟨patches, size, hres, hcheck, rfl⟩ := finish_eq_ok_iff.1 hfinish
  obtain ⟨hloops, haccounted, hsum, hlocals⟩ := check_eq_ok_iff.1 hcheck
  have hle : size ≤ frameSize := by
    rw [UInt32.le_iff_toNat_le, hsize]
    exact Nat.le_max_left _ _
  rw [sum?_eq_some_iff] at hsum
  refine finish_eq_ok_iff.2 ⟨patches, frameSize, hjumps.resolve hres, check_eq_ok_iff.2 ?_, rfl⟩
  refine ⟨hjumps.loops.trans hloops, haccounted, sum?_eq_some_iff.2 ?_, ?_⟩
  · rw [hsize, hframe.highWater, hsum, Nat.add_max_add_left]
  · exact fun index hindex => UInt32.lt_of_lt_of_le (hlocals index hindex) hle

theorem check_eq_overflow (hloops : p.jumps.loops = []) (haccounted : p.accounted = p.code.size)
    (hsize : UInt32.size ≤ p.fixedLocals.toNat + p.frame.highWater.toNat) :
    p.check = .error (.operandOverflow 0xffffffff) := by
  rw [check, if_neg (not_not_intro hloops), if_neg (not_not_intro haccounted), sum?,
    if_neg (Nat.not_lt.2 hsize)]

/-- If the second pass has used more cells than a frame can have, that is the fault. -/
theorem Similar.finish_error (h : p.Similar s b q) {c : Code} (hfinish : p.finish.2 = .ok c)
    (hsize : UInt32.size ≤ p.fixedLocals.toNat + b) :
    q.finish.2 = .error (.operandOverflow 0xffffffff) := by
  obtain ⟨hframe, hjumps⟩ := h
  obtain ⟨patches, size, hres, hcheck, rfl⟩ := finish_eq_ok_iff.1 hfinish
  obtain ⟨hloops, haccounted, -, -⟩ := check_eq_ok_iff.1 hcheck
  rw [Pass.finish, hjumps.resolve hres]
  show (check _).map _ = _
  rw [check_eq_overflow]
  · rfl
  · exact hjumps.loops.trans hloops
  · exact haccounted
  · show UInt32.size ≤ p.fixedLocals.toNat + (Frame.highWater _).toNat
    rw [hframe.highWater]
    omega

end Pass

/-! ## Directives in place -/

namespace Frame

variable {is : List Instr}

/-- While the high-water mark is below its largest value, it is at least the number of cells. -/
theorem length_cells_le_highWater (is : List Instr)
    (h : (after is).highWater.toNat + 1 < UInt32.size) :
    (after is).cells.length ≤ (after is).highWater.toNat := by
  induction is using List.reverseRecOn with
  | nil => exact Nat.le_refl 0
  | append_singleton is i ih =>
    have hle := (after is).highWater_le_follow i
    rw [after_append_singleton] at h ⊢
    have ih := ih (by omega)
    rcases (after is).follow_cases i with ⟨heq, -⟩ | ⟨t, -, -, heq⟩ | ⟨t, r, -, -, heq⟩
    · rwa [heq]
    · have hnext := toNat_nextFree_add_one (f := after is) (by omega)
      rw [heq, allocated, toNat_max, hnext, List.length_append, List.length_singleton]
      exact Nat.le_max_right _ _
    · rw [heq]
      exact Nat.le_trans ((after is).length_cells_released_le t r) ih

theorem highWater_after_le (is js : List Instr) :
    (after is).highWater.toNat ≤ (after (is ++ js)).highWater.toNat := by
  induction js using List.reverseRecOn with
  | nil => exact Nat.le_of_eq (by rw [List.append_nil])
  | append_singleton js j ih =>
    rw [← List.append_assoc, after_append_singleton]
    exact Nat.le_trans ih (highWater_le_follow _ j)

/-- A temporary that is allocated and released at once leaves the cells as they were. It raises the
mark by the number after its own, which is zero after the largest word. -/
theorem similar_released_allocated (x : Temp) (hlt : (after is).cells.length < UInt32.size) :
    (after is).Similar (.exceptTemp x) (((after is).cells.length + 1) % UInt32.size)
      (((after is).allocated x).released x (after is).nextFree) := by
  have hlive : ((after is).allocated x).binding? x = some (.live (after is).nextFree) := by
    rw [binding?_allocated, if_pos rfl]
  have hnext := toNat_nextFree hlt
  refine ⟨fun {t} ht => ?_, ?_, ?_⟩
  · rw [binding?_released _ _ _ hlive, if_neg ht, binding?_allocated, if_neg ht]
  · simp only [released, allocated, hnext]
    rw [List.set_append_right _ _ (Nat.le_refl _), Nat.sub_self, List.set_cons_zero, reclaim_append]
    exact reclaim_cells_after is
  · simp only [released, allocated, toNat_max, toNat_nextFree_add_one_mod]

end Frame

namespace Pass

variable {n : UInt32} {is : List Instr} {p : Pass}

theorem Reaches.similar_jumps (h : Reaches n is p) (his : ∀ i ∈ is, i.Within s) :
    p.jumps.Similar s p.jumps where
  address? := fun _ => rfl
  fixups := by
    refine List.forall₂_same.2 fun f hf => ⟨rfl, rfl, ?_⟩
    obtain ⟨k, i, m, label, hk, hm, rfl⟩ := h.ledger.mem_fixups.1 hf
    have htarget := Instr.target?_eq_some_iff.2 (List.mem_of_getElem? hm)
    exact (his i (List.mem_of_getElem? hk)).labels label (Instr.mem_labels_of_target? htarget)
  loops := rfl
  items := by
    intro l hl
    rw [h.ledger.loops] at hl
    obtain ⟨e, he, rfl⟩ := List.mem_map.1 hl
    exact item_within_of_mem_openLoops his he

/-- The pass in which a label has been placed. -/
def labelled (p : Pass) (label : Label) : Pass :=
  { p with jumps := { p.jumps with placed := (label, p.offset.toUInt32) :: p.jumps.placed } }

theorem address?_labelled (p : Pass) (l m : Label) :
    (p.labelled l).jumps.address? m =
      if m = l then some p.offset.toUInt32 else p.jumps.address? m := by
  show ((l, p.offset.toUInt32) :: p.jumps.placed).lookup m = _
  rw [List.lookup_cons]
  by_cases h : m = l
  · rw [if_pos h, beq_iff_eq.2 h]
  · rw [if_neg h, beq_false_of_ne h]
    rfl

theorem reaches_place_iff {label : Label} {q : Pass} :
    Reaches n (is ++ [.place label]) q ↔
      ∃ p, Reaches n is p ∧ p.jumps.address? label = none ∧ q = p.labelled label := by
  rw [reaches_append_singleton_iff]
  constructor
  · rintro ⟨p, event, hp, hstep⟩
    have hstepped := (stepped_iff hp.ledger.fits).1 ⟨event, hstep⟩
    cases hstepped with
    | place hnone => exact ⟨p, hp, hnone, rfl⟩
    | write hop => cases hop
  · rintro ⟨p, hp, hnone, rfl⟩
    obtain ⟨event, hstep⟩ := (stepped_iff (n := is.length) hp.ledger.fits).2 (.place hnone)
    exact ⟨p, event, hp, hstep⟩

/-- A label that nothing waits for can be placed anywhere. -/
theorem standsFor_place {label : Label} (his : ∀ i ∈ is, i.Within (.exceptLabel label))
    (n : UInt32) : StandsFor n (.exceptLabel label) 0 (is ++ [.place label]) is := by
  intro p hp
  have hnone : p.jumps.address? label = none := by
    refine hp.ledger.address?_eq_none_iff.2 fun m hm => ?_
    exact (his _ (List.mem_of_getElem? hm)).labels label List.mem_cons_self rfl
  refine ⟨_, reaches_place_iff.2 ⟨p, hp, hnone, rfl⟩, .refl _ _,
    (hp.similar_jumps his).withPlaced fun {m} hm => ?_⟩
  exact (p.address?_labelled label m).trans (if_neg hm)

/-- Two labels at one place can be placed in either order. -/
theorem standsFor_swap (is : List Instr) (l m : Label) (n : UInt32) :
    StandsFor n .all 0 (is ++ [.place m] ++ [.place l]) (is ++ [.place l] ++ [.place m]) := by
  intro p hp
  obtain ⟨q, hq, hm, rfl⟩ := reaches_place_iff.1 hp
  obtain ⟨r, hr, hl, rfl⟩ := reaches_place_iff.1 hq
  rw [address?_labelled] at hm
  split at hm
  · cases hm
  next hne =>
    have hl' : (r.labelled m).jumps.address? l = none := by
      rw [address?_labelled, if_neg (Ne.symm hne), hl]
    refine ⟨_, reaches_place_iff.2 ⟨_, reaches_place_iff.2 ⟨r, hr, hm, rfl⟩, hl', rfl⟩, .refl _ _,
      (hr.similar_jumps fun i _ => i.within_all).withPlaced fun {label} _ => ?_⟩
    show ((r.labelled m).labelled l).jumps.address? label =
      ((r.labelled l).labelled m).jumps.address? label
    simp only [address?_labelled]
    by_cases h : label = l
    · simp [h, labelled, offset, Ne.symm hne]
    · simp [h, labelled, offset]

/-- A temporary that nothing else names can be allocated and released anywhere. -/
theorem standsFor_alloc_release {x : Temp} (his : ∀ i ∈ is, i.Within (.exceptTemp x))
    (hlt : (Frame.after is).cells.length < UInt32.size) (n : UInt32) :
    StandsFor n (.exceptTemp x) (((Frame.after is).cells.length + 1) % UInt32.size)
      (is ++ [.alloc x, .release x]) is := by
  rw [List.append_cons]
  intro p hp
  have hnone : p.frame.binding? x = none := by
    rw [hp.ledger.frame, Frame.binding?_after_eq_none_iff]
    rintro a ⟨i, hi, hallocs⟩
    obtain ⟨t, ht, hid⟩ := Instr.exists_mem_temps (Or.inl hallocs)
    exact (his i (List.mem_of_getElem? hi)).temps t ht hid
  have hlive : (p.frame.allocated x).binding? x = some (.live p.frame.nextFree) := by
    rw [Frame.binding?_allocated, if_pos rfl]
  obtain ⟨event, hstep⟩ := (stepped_iff (n := is.length) hp.ledger.fits).2 (.alloc hnone)
  have hq := hp.snoc hstep
  obtain ⟨event', hstep'⟩ := (stepped_iff (n := (is ++ [Instr.alloc x]).length) hq.ledger.fits).2
    (.release hlive)
  have hframe := Frame.similar_released_allocated x hlt
  rw [← hp.ledger.frame] at hframe
  refine ⟨_, hq.snoc hstep', ?_⟩
  rw [← hp.ledger.frame]
  exact ⟨hframe, hp.similar_jumps his⟩

end Pass

/-! ## Programs -/

namespace Program

variable {n : UInt32} {is is' js : List Instr} {c : Code}

theorem lower_of_standsFor (h : Pass.StandsFor n s b is' is) (hjs : ∀ j ∈ js, j.Within s)
    (hlower : (Program.lower ⟨is ++ js⟩ n).result = .ok c) (hsize : n.toNat + b < UInt32.size) :
    (Program.lower ⟨is' ++ js⟩ n).result =
      .ok { c with frameSize := max c.frameSize (n.toNat + b).toUInt32 } := by
  obtain ⟨p, hp, hfinish⟩ := lower_eq_ok_iff.1 hlower
  obtain ⟨q, hq, hsim⟩ := h.append hjs p hp
  refine lower_eq_ok_iff.2 ⟨q, hq, hsim.finish hfinish ?_⟩
  rw [toNat_max, toNat_toUInt32 hsize, hp.ledger.fixedLocals]

theorem lower_error_of_standsFor (h : Pass.StandsFor n s b is' is) (hjs : ∀ j ∈ js, j.Within s)
    (hlower : (Program.lower ⟨is ++ js⟩ n).result = .ok c) (hsize : UInt32.size ≤ n.toNat + b) :
    (Program.lower ⟨is' ++ js⟩ n).result =
      .error (.finalize (Program.text ⟨is' ++ js⟩) (.operandOverflow 0xffffffff)) := by
  obtain ⟨p, hp, hfinish⟩ := lower_eq_ok_iff.1 hlower
  obtain ⟨q, hq, hsim⟩ := h.append hjs p hp
  rw [← hp.ledger.fixedLocals] at hsize
  rw [result_of_reaches hq, hsim.finish_error hfinish hsize]
  rfl

/-- If no cells are added, the code is the same. -/
theorem lower_eq_of_standsFor (h : Pass.StandsFor n s 0 is' is) (hjs : ∀ j ∈ js, j.Within s)
    (hlower : (Program.lower ⟨is ++ js⟩ n).result = .ok c) :
    (Program.lower ⟨is' ++ js⟩ n).result = .ok c := by
  have hle : n.toNat ≤ c.frameSize.toNat := by
    rw [frameSize_of_lower hlower]
    exact Nat.le_add_right _ _
  have hsize : max c.frameSize (n.toNat + 0).toUInt32 = c.frameSize := by
    rw [← UInt32.toNat_inj, toNat_max, Nat.add_zero, toNat_toUInt32 n.toNat_lt_size]
    exact Nat.max_eq_left hle
  rw [lower_of_standsFor h hjs hlower n.toNat_lt_size, hsize]

theorem lower_places_perm {ls ms : List Label} (h : ls.Perm ms) (is : List Instr)
    (hlower : (Program.lower ⟨is ++ ls.map .place ++ js⟩ n).result = .ok c) :
    (Program.lower ⟨is ++ ms.map .place ++ js⟩ n).result = .ok c := by
  induction h generalizing is with
  | nil => exact hlower
  | cons l _ ih =>
    rw [List.map_cons, List.append_cons] at hlower ⊢
    exact ih _ hlower
  | swap l m ls =>
    have hsplit (l m : Label) : is ++ (m :: l :: ls).map .place ++ js =
        is ++ [.place m] ++ [.place l] ++ (ls.map .place ++ js) := by
      simp only [List.map_cons, List.append_assoc, List.cons_append, List.nil_append]
    rw [hsplit] at hlower ⊢
    exact lower_eq_of_standsFor (Pass.standsFor_swap is m l n) (fun i _ => i.within_all) hlower
  | trans _ _ ih ih' => exact ih' is (ih is hlower)

/-- The program with instructions put in before the one with number `k`. -/
def insertAt (p : Program) (k : Nat) (is : List Instr) : Program :=
  ⟨p.instrs.take k ++ is ++ p.instrs.drop k⟩

variable {p : Program} {x : Temp}

theorem result_take_drop (h : (p.lower n).result = .ok c) (k : Nat) :
    (Program.lower ⟨p.instrs.take k ++ p.instrs.drop k⟩ n).result = .ok c := by
  rw [List.take_append_drop]
  exact h

theorem lower_insertAt_place (h : (p.lower n).result = .ok c) {label : Label}
    (hlabel : label ∉ p.instrs.flatMap Instr.labels) (k : Nat) :
    ((p.insertAt k [.place label]).lower n).result = .ok c := by
  have hwithin := Instr.within_exceptLabel hlabel
  refine lower_eq_of_standsFor (Pass.standsFor_place ?_ n) ?_ (result_take_drop h k)
  · exact fun i hi => hwithin i (List.mem_of_mem_take hi)
  · exact fun i hi => hwithin i (List.mem_of_mem_drop hi)

theorem standsFor_temp (hx : ∀ t ∈ p.instrs.flatMap Instr.temps, t.id ≠ x.id) {k : Nat}
    (hlt : (Frame.after (p.instrs.take k)).cells.length < UInt32.size) (n : UInt32) :
    Pass.StandsFor n (.exceptTemp x)
      (((Frame.after (p.instrs.take k)).cells.length + 1) % UInt32.size)
      (p.instrs.take k ++ [.alloc x, .release x]) (p.instrs.take k) := by
  have hwithin := Instr.within_exceptTemp hx
  exact Pass.standsFor_alloc_release (fun i hi => hwithin i (List.mem_of_mem_take hi)) hlt n

/-- If there are fixed locals, the number of a cell never reaches the largest word. -/
theorem cells_lt_of_lower (h : (p.lower n).result = .ok c) (hn : n ≠ 0) (k : Nat) :
    (Frame.after (p.instrs.take k)).cells.length + 1 < UInt32.size := by
  have hpos : 0 < n.toNat := Nat.pos_of_ne_zero fun h => hn (UInt32.toNat_inj.1 h)
  have hsize := frameSize_of_lower h
  have hlt := c.frameSize.toNat_lt_size
  have hle := Frame.highWater_after_le (p.instrs.take k) (p.instrs.drop k)
  rw [List.take_append_drop] at hle
  have hcells := Frame.length_cells_le_highWater (p.instrs.take k) (by omega)
  omega

/-- A temporary that is not used is put where the stack has as many cells as the largest word. The
number after that of its own cell is zero, so the frame stays as it is. -/
theorem lower_insertAt_full (h : (p.lower n).result = .ok c)
    (hx : ∀ t ∈ p.instrs.flatMap Instr.temps, t.id ≠ x.id) {k : Nat}
    (hcells : (Frame.after (p.instrs.take k)).cells.length + 1 = UInt32.size) :
    ((p.insertAt k [.alloc x, .release x]).lower n).result = .ok c := by
  have hstands := standsFor_temp hx (Nat.lt_of_succ_le (Nat.le_of_eq hcells)) n
  rw [hcells, Nat.mod_self] at hstands
  refine lower_eq_of_standsFor hstands (fun i hi => ?_) (result_take_drop h k)
  exact Instr.within_exceptTemp hx i (List.mem_of_mem_drop hi)

/-- Directives that no other instruction depends on change no word. A label that is not used may be
placed anywhere, labels at one place may be placed in any order, and a temporary that is not used
may be allocated and released anywhere, if the frame has room for it. If it has not, that is an
overflow, but for the one case that there are no fixed locals and just one cell too many, which is
not noticed. -/
theorem lower_directives (h : (p.lower n).result = .ok c) :
    (∀ k label, label ∉ p.instrs.flatMap Instr.labels →
      ((p.insertAt k [.place label]).lower n).result = .ok c) ∧
    (∀ is js (ls ms : List Label), p.instrs = is ++ ls.map .place ++ js → ls.Perm ms →
      (Program.lower ⟨is ++ ms.map .place ++ js⟩ n).result = .ok c) ∧
    ∀ k x, (∀ t ∈ p.instrs.flatMap Instr.temps, t.id ≠ x.id) →
      let q := p.insertAt k [.alloc x, .release x]
      let peak := n.toNat + (Frame.after (p.instrs.take k)).cells.length + 1
      (peak < UInt32.size →
        (q.lower n).result = .ok { c with frameSize := max c.frameSize peak.toUInt32 }) ∧
      (UInt32.size ≤ peak → n ≠ 0 →
        (q.lower n).result = .error (.finalize q.text (.operandOverflow 0xffffffff))) ∧
      ((Frame.after (p.instrs.take k)).cells.length + 1 = UInt32.size →
        (q.lower n).result = .ok c) := by
  refine ⟨fun k label hlabel => lower_insertAt_place h hlabel k, fun is js ls ms heq hperm => ?_,
    fun k x hx => ?_⟩
  · refine lower_places_perm hperm is ?_
    rw [← heq]
    exact h
  · have hafter : ∀ i ∈ p.instrs.drop k, i.Within (.exceptTemp x) :=
      fun i hi => Instr.within_exceptTemp hx i (List.mem_of_mem_drop hi)
    have hsplit := result_take_drop h k
    have hstands (hlt : (Frame.after (p.instrs.take k)).cells.length + 1 < UInt32.size) :
        Pass.StandsFor n (.exceptTemp x) ((Frame.after (p.instrs.take k)).cells.length + 1)
          (p.instrs.take k ++ [.alloc x, .release x]) (p.instrs.take k) := by
      have := standsFor_temp hx (Nat.lt_of_succ_lt hlt) n
      rwa [Nat.mod_eq_of_lt hlt] at this
    refine ⟨fun hpeak => ?_, fun hpeak hn => ?_, lower_insertAt_full h hx⟩
    · exact lower_of_standsFor (hstands (by omega)) hafter hsplit hpeak
    · exact lower_error_of_standsFor (hstands (cells_lt_of_lower h hn k)) hafter hsplit hpeak

/-- A loop over the items of a global that returns the first one for which no test leads to the next
one. -/
def skipLoop : Program :=
  let loc : Position := ⟨1, 1⟩
  let item : Temp := ⟨0, "item"⟩
  let skip : Label := ⟨0⟩
  let next : Label := ⟨1⟩
  ⟨[.alloc item,
    .forInit loc (.global 7) (.temp item),
    .branchIf loc (.temp item) .whenTrue skip,
    .branchIf loc (.fixed ⟨0⟩) .whenFalse next,
    .ret loc (.var (.temp item)),
    .place skip,
    .place next,
    .forClose loc,
    .release item,
    .ret loc (.var (.fixed ⟨1⟩))]⟩

/-- Its code, if it has two fixed locals. -/
def skipCode : Code where
  words := #[4, 0x20000007, 2, 15, 2, 2, 12, 3, 0, 12, 6, 2, 5, 2, 4, 6, 1]
  locs := Array.replicate 17 ⟨1, 1⟩
  frameSize := 3

/-- A return in a frame that has no cell left. -/
def fullReturn : Program :=
  ⟨[.ret ⟨1, 1⟩ (.global 0)]⟩

/-- Its code, if all cells are fixed locals. -/
def fullCode : Code where
  words := #[6, 0x20000000]
  locs := Array.replicate 2 ⟨1, 1⟩
  frameSize := 0xffffffff

/-- The label and the temporary are put in the loop, between the branches and their labels. -/
theorem lower_directives_skipLoop :
    (skipLoop.lower 2).result = .ok skipCode ∧
      ((skipLoop.insertAt 4 [.place ⟨2⟩]).lower 2).result = .ok skipCode ∧
      (Program.lower ⟨skipLoop.instrs.take 5 ++ [.place ⟨1⟩, .place ⟨0⟩] ++
        skipLoop.instrs.drop 7⟩ 2).result = .ok skipCode ∧
      ((skipLoop.insertAt 4 [.alloc ⟨1, "spare"⟩, .release ⟨1, "spare"⟩]).lower 2).result =
        .ok { skipCode with frameSize := 4 } ∧
      (fullReturn.lower 0xffffffff).result = .ok fullCode ∧
      ∃ e, ((fullReturn.insertAt 0 [.alloc ⟨0, "x"⟩, .release ⟨0, "x"⟩]).lower 0xffffffff).result =
        .error e ∧ e.fault = .operandOverflow 0xffffffff := by
  have hskip : (skipLoop.lower 2).result = .ok skipCode := by decide
  have hfull : (fullReturn.lower 0xffffffff).result = .ok fullCode := by decide
  obtain ⟨hplace, hperm, hpair⟩ := lower_directives hskip
  obtain ⟨-, -, hfullPair⟩ := lower_directives hfull
  refine ⟨hskip, hplace 4 ⟨2⟩ (by decide), ?_, (hpair 4 ⟨1, "spare"⟩ (by decide)).1 (by decide),
    hfull, _, (hfullPair 0 ⟨0, "x"⟩ (by decide)).2.1 (by decide) (by decide), rfl⟩
  exact hperm _ _ [⟨0⟩, ⟨1⟩] [⟨1⟩, ⟨0⟩] rfl (.swap _ _ _)

/-! ## The cell after the last -/

theorem id_ne_of_mem_temps_crowd {k : Nat} (hk : k < UInt64.size) {t : Temp}
    (ht : t ∈ (crowd k).flatMap Instr.temps) : t.id ≠ (numbered k).id := by
  obtain ⟨i, hi, ht⟩ := List.mem_flatMap.1 ht
  obtain ⟨m, hm, rfl⟩ := List.mem_map.1 hi
  obtain rfl := List.mem_singleton.1 ht
  have hlt := List.mem_range.1 hm
  exact mt (id_numbered_eq_iff (Nat.lt_trans hlt hk) hk).1 (Nat.ne_of_lt hlt)

theorem lower_crowd {k : Nat} (hk : UInt32.size ≤ k + 1) (hk' : k ≤ UInt64.size) :
    (Program.lower ⟨crowd k⟩ 0).result = .ok { frameSize := 0xffffffff } := by
  rw [lower_of_reaches_frame (p := ⟨crowd k⟩) (Pass.reaches_crowd hk' 0),
    (Frame.crowded_after hk').highWater_eq hk]

theorem length_cells_take_crowd {k : Nat} (hk : k ≤ UInt64.size) :
    (Frame.after ((crowd k).take k)).cells.length = k := by
  rw [List.take_of_length_le (Nat.le_of_eq (length_crowd k)),
    (Frame.crowded_after hk).length_cells]

/-- Beside `2 ^ 32 - 1` temporaries, one more needs a frame of `2 ^ 32` cells. It is given a frame
that is smaller by one. -/
theorem lower_insertAt_crowd :
    let k := UInt32.size - 1
    (∀ t ∈ (crowd k).flatMap Instr.temps, t.id ≠ (numbered k).id) ∧
      (Frame.after ((crowd k).take k)).cells.length + 1 = UInt32.size ∧
      (Program.lower ⟨crowd k⟩ 0).result = .ok { frameSize := 0xffffffff } ∧
      ((insertAt ⟨crowd k⟩ k [.alloc (numbered k), .release (numbered k)]).lower 0).result =
        .ok { frameSize := 0xffffffff } := by
  intro k
  have hk : k + 1 = UInt32.size := rfl
  have hk' : k < UInt64.size := by
    show UInt32.size - 1 < UInt64.size
    decide
  -- nothing below depends on the number itself, and the list is too long to be looked at
  clear_value k
  have hlower := lower_crowd (Nat.le_of_eq hk.symm) (Nat.le_of_lt hk')
  have hfresh (t : Temp) (ht : t ∈ (crowd k).flatMap Instr.temps) : t.id ≠ (numbered k).id :=
    id_ne_of_mem_temps_crowd hk' ht
  rw [← length_cells_take_crowd (Nat.le_of_lt hk')] at hk
  exact ⟨hfresh, hk, hlower, lower_insertAt_full hlower hfresh hk⟩

end Program

end Assembler
