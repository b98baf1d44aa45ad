import Mathlib.Data.List.Forall2
import Assembler.Proofs.Endings
import Assembler.Proofs.Occupancy
import Assembler.Proofs.Wrapping

/-!
# What the events tell

Each directive that is written is reported by one event, in the order of the instructions, and what
the event says is what the code holds (`Program.Reports`). The index of a temporary is the one that
all operand words for it give, also in code that is never finished. The address of a label is the
one that all branches to it are patched with.

What is free after a release is told by a word: it is the number of cells, cut down to a word. That
is the number after the highest cell in use as long as there are fewer than `2 ^ 32` cells, and
another where there are as many (`Program.released_crowd`).

When all branches have their addresses, the labels that none of them needs are reported, each once.
The last event tells the sizes of the code, if there is any (`Program.trace_of_lower`).
-/

namespace Assembler

/-- The instruction writes no code, but changes the frame or places a label. -/
def Instr.isDirective : Instr → Bool
  | .alloc _ | .release _ | .place _ => true
  | _ => false

/-- The directives among instructions, with their numbers. -/
def directives (is : List Instr) : List (Instr × Nat) :=
  is.zipIdx.filter (·.1.isDirective)

theorem directives_append_singleton (is : List Instr) (i : Instr) :
    directives (is ++ [i]) = directives is ++ [(i, is.length)].filter (·.1.isDirective) := by
  simp [directives, List.zipIdx_append]

theorem mem_directives {is : List Instr} {i : Instr} {k : Nat} :
    (i, k) ∈ directives is ↔ is[k]? = some i ∧ i.isDirective = true := by
  rw [directives, List.mem_filter, List.mem_zipIdx_iff_getElem?]

/-- The label is placed, but no branch goes there. -/
def Idle (is : List Instr) (label : Label) : Prop :=
  .place label ∈ is ∧ ∀ i ∈ is, i.target? ≠ some label

namespace Pass

variable {n : UInt32} {is js : List Instr} {i : Instr} {p q : Pass} {k : Nat}

/-! ## One event for each directive -/

theorem event_eq_none {x : Except Fault Pass} {event : Option Event}
    (h : (x >>= fun p => pure (p, (none : Option Event))) = .ok (q, event)) : event = none := by
  obtain ⟨r, -, h⟩ := bind_eq_ok_iff.1 h
  exact (Prod.mk.inj (Except.ok.inj h)).2.symm

/-- An instruction is reported where it is written iff it is a directive. -/
theorem isSome_event_of_step {event : Option Event} (h : p.step k i = .ok (q, event)) :
    event.isSome = i.isDirective := by
  cases i with
  | alloc | release | place =>
    obtain ⟨r, -, h⟩ := bind_eq_ok_iff.1 h
    rw [← (Prod.mk.inj (Except.ok.inj h)).2]
    rfl
  | _ =>
    rw [event_eq_none h]
    rfl

/-- The events of a pass over more instructions. -/
theorem run_append_events (js : List Instr) (h : (p.run k is).2 = .ok q) :
    (p.run k (is ++ js)).1 = (p.run k is).1 ++ (q.run (k + is.length) js).1 := by
  induction is generalizing p k with
  | nil =>
    obtain rfl := Except.ok.inj h
    rfl
  | cons i is ih =>
    unfold run at h
    split at h
    · cases h
    next r event hstep =>
      rw [List.cons_append, run, run, hstep, List.length_cons, Nat.add_comm is.length,
        ← Nat.add_assoc]
      simp only [List.append_assoc]
      rw [ih h]

/-- The event is the one with which the directive is written. -/
def Reported (n : UInt32) (is : List Instr) (d : Instr × Nat) (e : Event) : Prop :=
  is[d.2]? = some d.1 ∧
    ∃ p q, Reaches n (is.take d.2) p ∧ p.step d.2 d.1 = .ok (q, some e)

/-- The instructions that are written have one event for each directive, in order. -/
theorem Reaches.forall₂_events (h : Reaches n js p) (hjs : js <+: is) :
    List.Forall₂ (Reported n is) (directives js) (run { fixedLocals := n } 0 js).1 := by
  induction h with
  | nil => exact .nil
  | @snoc js i p q event h hstep ih =>
    have ih := ih ((List.prefix_append js [i]).trans hjs)
    have hlast : (p.run js.length [i]).1 = event.toList := by
      simp [run, hstep]
    rw [directives_append_singleton, run_append_events [i] (reaches_iff_run.1 h), Nat.zero_add,
      hlast]
    refine List.rel_append ih ?_
    -- the last instruction adds an event to the run iff it adds a directive to the list
    have hsome := isSome_event_of_step hstep
    cases event with
    | none =>
      rw [List.filter_singleton, ← hsome]
      exact .nil
    | some e =>
      rw [List.filter_singleton, ← hsome]
      obtain ⟨rest, rfl⟩ := hjs
      have hread : (js ++ [i] ++ rest)[js.length]? = some i := by simp
      refine .cons ⟨hread, p, q, ?_, hstep⟩ .nil
      rwa [List.append_assoc, List.take_left]

/-! ## Labels that no branch needs -/

theorem Reaches.nodup_placed (h : Reaches n is p) : (p.jumps.placed.map Prod.fst).Nodup := by
  induction h with
  | nil => exact .nil
  | @snoc is i p q event h hstep ih =>
    have hplaced := (h.snoc hstep).ledger.placed
    rw [scan_append_singleton, List.reverse_append, ← h.ledger.placed] at hplaced
    rw [hplaced]
    cases i with
    | place label =>
      obtain ⟨j, hj, -⟩ := bind_eq_ok_iff.1 hstep
      have hnew : p.jumps.placed.lookup label = none := (place_eq_ok_iff.1 hj).1
      rw [List.lookup_eq_none_iff] at hnew
      refine List.nodup_cons.2 ⟨fun hmem => ?_, ih⟩
      obtain ⟨entry, hentry, hlabel⟩ := List.mem_map.1 hmem
      have hne := hnew entry hentry
      rw [bne_iff_ne] at hne
      exact hne hlabel.symm
    | _ => exact ih

theorem Ledger.mem_unreferenced (h : Ledger n is p) {label : Label} :
    label ∈ p.jumps.unreferenced ↔ Idle is label := by
  have hplaced : label ∈ p.jumps.placed.map Prod.fst ↔ .place label ∈ is := by
    rw [List.mem_map, List.mem_iff_getElem?]
    constructor
    · rintro ⟨⟨label, address⟩, hmem, rfl⟩
      obtain ⟨k, hk, -⟩ := h.mem_placed.1 hmem
      exact ⟨k, hk⟩
    · rintro ⟨k, hk⟩
      exact ⟨_, h.mem_placed.2 ⟨k, hk, rfl⟩, rfl⟩
  have hfixups : (∀ f ∈ p.jumps.fixups, f.label ≠ label) ↔ ∀ i ∈ is, i.target? ≠ some label := by
    constructor
    · intro hf i hi htarget
      obtain ⟨k, hk⟩ := List.mem_iff_getElem?.1 hi
      obtain ⟨m, hm⟩ := List.getElem?_of_mem (Instr.target?_eq_some_iff.1 htarget)
      exact hf _ (h.mem_fixups.2 ⟨k, i, m, label, hk, hm, rfl⟩) rfl
    · rintro hi f hf rfl
      obtain ⟨k, i, m, label, hk, hm, rfl⟩ := h.mem_fixups.1 hf
      exact hi i (List.mem_of_getElem? hk) (Instr.target?_eq_some_iff.2 (List.mem_of_getElem? hm))
  rw [Jumps.unreferenced, List.mem_mergeSort, List.mem_filter, hplaced, Idle, ← hfixups]
  simp

/-- A label that no branch needs is named once, since it is placed once. -/
theorem Reaches.nodup_unreferenced (h : Reaches n is p) : p.jumps.unreferenced.Nodup :=
  (List.mergeSort_perm _ _).nodup_iff.2 (h.nodup_placed.filter _)

end Pass

namespace Program

variable {p : Program} {n : UInt32} {is : List Instr} {c code : Code} {t : Temp} {r : UInt32}
  {k : Nat} {fault : Fault}

/-! ## What an event says of the code -/

/-- The code of a program whose branches have their addresses, before or after the last checks. -/
inductive Patched (p : Program) (n : UInt32) : Code → Prop where
  | resolved {pass : Pass} {patches : List (Nat × UInt32)} (h : Pass.Reaches n p.instrs pass)
      (hres : pass.jumps.resolve = .ok patches) : Patched p n (pass.code.patchAll patches)
  | lowered {code : Code} (h : (p.lower n).result = .ok code) : Patched p n code

/-- The code of a first part of a program while it is written, or that of all of it. -/
inductive Emits (p : Program) (n : UInt32) : List Instr → Code → Prop where
  | part {is : List Instr} {pass : Pass} (his : is <+: p.instrs) (h : Pass.Reaches n is pass) :
      Emits p n is pass.code
  | whole {code : Code} (h : p.Patched n code) : Emits p n p.instrs code

theorem Patched.image (h : p.Patched n c) : Image n p.instrs (LabelAddress p.instrs) c := by
  cases h with
  | resolved hreaches hres => exact hreaches.image_patchAll hres
  | lowered h => exact image_of_lower h

theorem Patched.exists_reaches (h : p.Patched n c) : ∃ pass, Pass.Reaches n p.instrs pass := by
  cases h with
  | resolved hreaches => exact ⟨_, hreaches⟩
  | lowered h =>
    obtain ⟨pass, hreaches, -⟩ := lower_eq_ok_iff.1 h
    exact ⟨pass, hreaches⟩

theorem Emits.exists_image (h : p.Emits n is c) :
    is <+: p.instrs ∧ ∃ known, Image n is known c := by
  cases h with
  | part his hreaches => exact ⟨his, _, hreaches.image⟩
  | whole hpatched => exact ⟨List.prefix_rfl, _, hpatched.image⟩

/-- Every operand word for a temporary gives the frame index of a cell above the fixed locals. -/
def OperandsAt (p : Program) (n : UInt32) (t : Temp) (r : UInt32) : Prop :=
  ∀ is c k m u, p.Emits n is c → NamesAt is k m (.temp u) → u.id = t.id →
    ∃ o : Operand, c.wordAt? (offsetOf is k + 1 + m) = some o.encode ∧ o.kind = .frame ∧
      o.index.toNat = n.toNat + r.toNat

/-- The event tells what becomes of a directive. The index of a temporary is that of its operand
words. What is free next is the number of cells, cut down to a word, and is above all cells in use
if their numbers have not wrapped around. The address of a label is that in the branches to it. -/
inductive Reports (p : Program) (n : UInt32) : Instr × Nat → Event → Prop where
  | allocated {k : Nat} {t : Temp} {r : UInt32}
      (hcell : (Frame.after (p.instrs.take (k + 1))).cell? t = some r)
      (hoperands : p.OperandsAt n t r) : Reports p n (.alloc t, k) (.allocated t r)
  | released {k : Nat} {t : Temp} {r next : UInt32}
      (hcell : (Frame.after (p.instrs.take k)).cell? t = some r) (hoperands : p.OperandsAt n t r)
      (hsize : next.toNat = (Frame.after (p.instrs.take (k + 1))).cells.length % UInt32.size)
      (hnext : Frame.NeverWraps (p.instrs.take (k + 1)) →
        (Frame.after (p.instrs.take (k + 1))).Height next.toNat) :
      Reports p n (.release t, k) (.released t r next)
  | placed {k : Nat} {label : Label} {address : UInt32}
      (haddress : address = (offsetOf p.instrs k).toUInt32)
      (hbranches : ∀ c j i m, p.Patched n c → p.instrs[j]? = some i →
        i.roles[m]? = some (.target label) →
          c.wordAt? (offsetOf p.instrs j + 1 + m) = some address) :
      Reports p n (.place label, k) (.placed label address)

/-- The operand words for a temporary give the cell that it ever holds. -/
theorem operandsAt_of_cell? (ht : (Frame.after (p.instrs.take k)).cell? t = some r) :
    p.OperandsAt n t r := by
  intro is c j m u hc hu hid
  obtain ⟨his, known, himage⟩ := hc.exists_image
  obtain ⟨o, hw, hkind, hindex⟩ := himage.exists_index_operand hu
  obtain ⟨r', hr', hsum⟩ := Option.map_eq_some_iff.1 hindex
  have htake : is.take j = p.instrs.take j := by
    obtain ⟨i, role, hj, -⟩ := hu
    obtain ⟨rest, hrest⟩ := his
    rw [← hrest, List.take_append_of_le_length (Nat.le_of_lt (List.getElem?_eq_some_iff.1 hj).1)]
  rw [htake] at hr'
  obtain rfl := Frame.cell?_unique hid hr' ht
  exact ⟨o, hw, hkind, hsum.symm⟩

theorem branches_of_place {label : Label} (hk : p.instrs[k]? = some (.place label))
    {j m : Nat} {i : Instr} (hc : p.Patched n c) (hj : p.instrs[j]? = some i)
    (hm : i.roles[m]? = some (.target label)) :
    c.wordAt? (offsetOf p.instrs j + 1 + m) = some (offsetOf p.instrs k).toUInt32 := by
  obtain ⟨w, hw, l, hl, rfl⟩ := (hc.image j).operand hj hm
  obtain ⟨pass, hreaches⟩ := hc.exists_reaches
  rw [hw, hreaches.place_unique hl hk]

/-- What a directive is written with is what its event tells. -/
theorem reports_of_reported {d : Instr × Nat} {e : Event} (h : Pass.Reported n p.instrs d e) :
    p.Reports n d e := by
  obtain ⟨i, k⟩ := d
  obtain ⟨hk, pass, q, hreaches, hstep⟩ := h
  have hframe : Frame.after (p.instrs.take k) = pass.frame := hreaches.ledger.frame.symm
  have hnext : Frame.after (p.instrs.take (k + 1)) = pass.frame.follow i := by
    rw [List.take_add_one, hk, ← hframe]
    exact Frame.after_append_singleton _ i
  cases i with
  | alloc t =>
    obtain ⟨hnone, -, hevent⟩ := Pass.step_alloc_eq_ok_iff.1 hstep
    cases hevent
    rw [Frame.follow_alloc hnone] at hnext
    have hcell : (Frame.after (p.instrs.take (k + 1))).cell? t = some pass.frame.nextFree := by
      rw [hnext, Frame.cell?_eq_some_iff, Frame.binding?_allocated, if_pos rfl]
    exact .allocated hcell (operandsAt_of_cell? hcell)
  | release t =>
    obtain ⟨r, hlive, -, hevent⟩ := Pass.step_release_eq_ok_iff.1 hstep
    cases hevent
    rw [Frame.follow_release hlive] at hnext
    have hcell : (Frame.after (p.instrs.take k)).cell? t = some r := by
      rw [hframe, Frame.cell?_eq_some_iff]
      exact hlive
    rw [← hnext]
    refine .released hcell (operandsAt_of_cell? hcell) (Frame.toNat_nextFree_mod _) fun hwraps => ?_
    rw [Frame.toNat_nextFree (hwraps _ List.prefix_rfl)]
    exact Frame.height_after hwraps
  | place label =>
    obtain ⟨jumps, -, h⟩ := bind_eq_ok_iff.1 hstep
    cases h
    have haddress : pass.offset = offsetOf p.instrs k := hreaches.ledger.offset
    rw [haddress]
    exact .placed rfl fun c j i m hc hj hm => branches_of_place hk hc hj hm
  | _ => cases Pass.event_eq_none hstep

/-! ## All events -/

/-- The instructions before the first that cannot be written. -/
inductive Written (p : Program) (n : UInt32) : List Instr → Prop where
  | upTo {k : Nat} {fault : Fault} (h : p.FailsAt n k fault) : Written p n (p.instrs.take k)
  | all (h : ∀ k fault, ¬ p.FailsAt n k fault) : Written p n p.instrs

/-- The labels that no branch needs are reported, unless an instruction cannot be written or a
branch has no label. -/
inductive Warns (p : Program) (n : UInt32) : List Event → Prop where
  | failed {k : Nat} {fault : Fault} (h : p.FailsAt n k fault) : Warns p n []
  | stray {k : Nat} {label : Label} (h : ∀ k fault, ¬ p.FailsAt n k fault)
      (hstray : Stray p.instrs k label) : Warns p n []
  | idle {labels : List Label} (h : ∀ k fault, ¬ p.FailsAt n k fault)
      (hplaced : ∀ k label, ¬ Stray p.instrs k label) (hnodup : labels.Nodup)
      (hlabels : ∀ label, label ∈ labels ↔ Idle p.instrs label) :
      Warns p n (labels.map .unreferenced)

/-- The event of the end of a lowering, which has one only if there is code. -/
def summary (p : Program) : Except Failure Code → List Event
  | .ok code => [.lowered p.size code.size code.frameSize code.constants.size]
  | .error _ => []

theorem not_failsAt_of_reaches {pass : Pass} (h : Pass.Reaches n p.instrs pass) (k : Nat)
    (fault : Fault) : ¬ p.FailsAt n k fault := by
  intro hfails
  have hrun := failsAt_iff_run.1 hfails
  rw [Pass.reaches_iff_run.1 h] at hrun
  cases hrun

/-- After the first instruction that cannot be written there are no more events. -/
theorem FailsAt.events_eq (h : p.FailsAt n k fault) :
    (p.lower n).events = (Pass.run { fixedLocals := n } 0 (p.instrs.take k)).1 := by
  have hevents : (p.lower n).events = (Pass.run { fixedLocals := n } 0 p.instrs).1 := by
    have hrun := failsAt_iff_run.1 h
    unfold lower
    split
    next heq => rw [heq]
    next heq =>
      rw [heq] at hrun
      cases hrun
  obtain ⟨i, pass, hk, hreaches, hstep⟩ := h
  obtain ⟨hlt, rfl⟩ := List.getElem?_eq_some_iff.1 hk
  have hlength : (p.instrs.take k).length = k := List.length_take_of_le (Nat.le_of_lt hlt)
  rw [hevents]
  conv_lhs => rw [← List.take_append_drop k p.instrs]
  rw [Pass.run_append_events _ (Pass.reaches_iff_run.1 hreaches), hlength, Nat.zero_add,
    List.drop_eq_getElem_cons hlt, Pass.run, hstep]
  exact List.append_nil _

theorem events_of_reaches {pass : Pass} (h : Pass.Reaches n p.instrs pass) :
    (p.lower n).events =
      (Pass.run { fixedLocals := n } 0 p.instrs).1 ++ pass.finish.1 ++
        p.summary (p.lower n).result := by
  have hrun := Pass.reaches_iff_run.1 h
  unfold lower
  split
  next heq =>
    rw [heq] at hrun
    cases hrun
  next heq =>
    rw [heq] at hrun
    cases hrun
    rw [heq]
    split
    next hfinish => simp [hfinish, summary]
    next hfinish => simp [hfinish, summary]

theorem warns_of_reaches {pass : Pass} (h : Pass.Reaches n p.instrs pass) :
    p.Warns n pass.finish.1 := by
  have hwritten := not_failsAt_of_reaches h
  cases hres : pass.jumps.resolve with
  | error fault =>
    obtain ⟨k, label, -, hstray, -⟩ := h.ledger.firstStray_of_resolve hres
    rw [Pass.finish, hres]
    exact .stray hwritten hstray
  | ok patches =>
    rw [Pass.finish, hres]
    exact .idle hwritten (h.ledger.not_stray_of_resolve hres) h.nodup_unreferenced
      fun _ => h.ledger.mem_unreferenced

/-- A temporary is released at the index at which it was allocated. -/
theorem allocated_of_released {trace : List Event} (his : is <+: p.instrs)
    (htrace : List.Forall₂ (p.Reports n) (directives is) trace) {next : UInt32}
    (h : .released t r next ∈ trace) : ∃ u : Temp, u.id = t.id ∧ .allocated u r ∈ trace := by
  obtain ⟨m, hm⟩ := List.getElem?_of_mem h
  obtain ⟨d, hd, hreports⟩ := exists_getElem?_of_forall₂ htrace.flip hm
  cases hreports with
  | @released k t r next hcell =>
    obtain ⟨hk, -⟩ := mem_directives.1 (List.mem_of_getElem? hd)
    obtain ⟨⟨a, hlt, i, ha, hallocs⟩, -⟩ := Frame.exists_cell?_iff.1 ⟨r, hcell⟩
    cases i with
    | alloc u =>
      have hread : is[a]? = some (.alloc u) := by
        obtain ⟨rest, hrest⟩ := his
        rwa [← hrest, List.getElem?_append_left
          (Nat.lt_trans hlt (List.getElem?_eq_some_iff.1 hk).1)] at ha
      obtain ⟨m', hm'⟩ := List.getElem?_of_mem (mem_directives.2 ⟨hread, rfl⟩)
      obtain ⟨e, he, hreports⟩ := exists_getElem?_of_forall₂ htrace hm'
      cases hreports with
      | @allocated _ _ r' hcell' =>
        obtain rfl := Frame.cell?_unique hallocs hcell' hcell
        exact ⟨u, hallocs, List.mem_of_getElem? he⟩
    | _ => cases hallocs

theorem exists_events (p : Program) (n : UInt32) :
    ∃ written trace warnings,
      (p.lower n).events = trace ++ warnings ++ p.summary (p.lower n).result ∧
      p.Written n written ∧ List.Forall₂ (p.Reports n) (directives written) trace ∧
      (∀ t r next, .released t r next ∈ trace →
        ∃ u : Temp, u.id = t.id ∧ .allocated u r ∈ trace) ∧
      p.Warns n warnings := by
  have hreports {is : List Instr} {pass : Pass} (h : Pass.Reaches n is pass)
      (his : is <+: p.instrs) :
      List.Forall₂ (p.Reports n) (directives is) (Pass.run { fixedLocals := n } 0 is).1 :=
    (h.forall₂_events his).imp fun _ _ => reports_of_reported
  by_cases hfails : ∃ k fault, p.FailsAt n k fault
  · obtain ⟨k, fault, hfails⟩ := hfails
    obtain ⟨i, pass, -, hreaches, -⟩ := id hfails
    have htrace := hreports hreaches (List.take_prefix _ _)
    refine ⟨_, _, [], ?_, .upTo hfails, htrace,
      fun _ _ _ => allocated_of_released (List.take_prefix _ _) htrace, .failed hfails⟩
    rw [hfails.events_eq, hfails.lower_eq, summary, List.append_nil, List.append_nil]
  · simp only [not_exists] at hfails
    obtain ⟨pass, hreaches⟩ := exists_reaches_of_not_failsAt hfails
    have htrace := hreports hreaches List.prefix_rfl
    exact ⟨_, _, _, events_of_reaches hreaches, .all hfails, htrace,
      fun _ _ _ => allocated_of_released List.prefix_rfl htrace, warns_of_reaches hreaches⟩

/-! ## Events by their level -/

theorem Reports.level_eq {d : Instr × Nat} {e : Event} (h : p.Reports n d e) :
    e.level = .trace := by
  cases h <;> rfl

theorem Warns.level_eq {warnings : List Event} (h : p.Warns n warnings) :
    ∀ e ∈ warnings, e.level = .warn := by
  cases h with
  | failed | stray => simp
  | idle =>
    intro e he
    obtain ⟨label, -, rfl⟩ := List.mem_map.1 he
    rfl

theorem level_eq_of_mem_summary {result : Except Failure Code} :
    ∀ e ∈ p.summary result, e.level = .debug := by
  cases result with
  | error failure => simp [summary]
  | ok code => simp [summary, Event.level]

/-- The events of one level. -/
def eventsAt (p : Program) (n : UInt32) (level : Level) : List Event :=
  (p.lower n).events.filter (·.level = level)

theorem filter_level_eq {events : List Event} {level : Level} (h : ∀ e ∈ events, e.level = level)
    (level' : Level) :
    events.filter (·.level = level') = if level = level' then events else [] := by
  split
  next heq => exact List.filter_eq_self.2 fun e he => decide_eq_true ((h e he).trans heq)
  next hne =>
    refine List.filter_eq_nil_iff.2 fun e he hlevel => hne ?_
    rw [← h e he, of_decide_eq_true hlevel]

/-- The events of a program. Those of its directives come first, in order, one for each that is
written before an instruction fails. Those of the labels that no branch needs come next. The event
with the sizes comes last, if there is code. -/
theorem trace_of_lower (p : Program) (n : UInt32) :
    (p.lower n).events = p.eventsAt n .trace ++ p.eventsAt n .warn ++ p.eventsAt n .debug ∧
      (∃ written, p.Written n written ∧
        List.Forall₂ (p.Reports n) (directives written) (p.eventsAt n .trace)) ∧
      (∀ t r next, .released t r next ∈ p.eventsAt n .trace →
        ∃ u : Temp, u.id = t.id ∧ .allocated u r ∈ p.eventsAt n .trace) ∧
      p.Warns n (p.eventsAt n .warn) ∧
      p.eventsAt n .debug = p.summary (p.lower n).result := by
  obtain ⟨written, trace, warnings, hevents, hwritten, htrace, hreleased, hwarns⟩ :=
    p.exists_events n
  have htraceLevel : ∀ e ∈ trace, e.level = .trace := by
    intro e he
    obtain ⟨m, hm⟩ := List.getElem?_of_mem he
    obtain ⟨d, -, hreports⟩ := exists_getElem?_of_forall₂ htrace.flip hm
    exact hreports.level_eq
  have hfilter (level : Level) : p.eventsAt n level =
      (if .trace = level then trace else []) ++ (if .warn = level then warnings else []) ++
        (if .debug = level then p.summary (p.lower n).result else []) := by
    rw [eventsAt, hevents, List.filter_append, List.filter_append, filter_level_eq htraceLevel,
      filter_level_eq hwarns.level_eq, filter_level_eq level_eq_of_mem_summary]
  have htraceAt : p.eventsAt n .trace = trace := by simp [hfilter]
  have hwarnAt : p.eventsAt n .warn = warnings := by simp [hfilter]
  have hdebugAt : p.eventsAt n .debug = p.summary (p.lower n).result := by simp [hfilter]
  rw [htraceAt, hwarnAt, hdebugAt]
  exact ⟨hevents, ⟨written, hwritten, htrace⟩, hreleased, hwarns, rfl⟩

example :
    let a : Temp := ⟨0, "a"⟩
    let b : Temp := ⟨1, "b"⟩
    (Program.lower ⟨[.alloc a, .alloc b, .release a, .release b, .release b]⟩ 0).events =
      [.allocated a 0, .allocated b 1, .released a 0 2, .released b 1 0] := by
  decide

/-! ## A release among too many temporaries -/

/-- The first of `k` temporaries is released. -/
def crowdedRelease (k : Nat) : Program :=
  ⟨crowd k ++ [.release (numbered 0)]⟩

theorem binding?_crowd (hk : 0 < k) (hk' : k ≤ UInt64.size) :
    (Frame.after (crowd k)).binding? (numbered 0) = some (.live 0) :=
  (Frame.crowded_after hk').live 0 hk

theorem after_crowdedRelease (hk : 0 < k) (hk' : k ≤ UInt64.size) :
    Frame.after (crowdedRelease k).instrs = (Frame.after (crowd k)).released (numbered 0) 0 := by
  rw [crowdedRelease, Frame.after_append_singleton]
  exact Frame.follow_release (binding?_crowd hk hk')

/-- The cell on top is held, so no cell is reclaimed. -/
theorem length_cells_crowdedRelease (hk : 2 ≤ k) (hk' : k ≤ UInt64.size) :
    (Frame.after (crowdedRelease k).instrs).cells.length = k := by
  have hcrowded := Frame.crowded_after hk'
  have hle := (Frame.after (crowd k)).length_cells_released_le (numbered 0) 0
  have htop : ((Frame.after (crowd k)).released (numbered 0) 0).cells[k - 1]? = some .held := by
    refine getElem?_reclaim_held ?_
    rw [hcrowded.cells, UInt32.toNat_zero, List.getElem?_set_ne (by omega),
      List.getElem?_replicate, if_pos (by omega)]
  have hlt := (List.getElem?_eq_some_iff.1 htop).1
  rw [hcrowded.length_cells] at hle
  rw [after_crowdedRelease (by omega) hk']
  omega

/-- The other temporaries keep their cells. -/
theorem cell?_crowdedRelease {i : Nat} (hi : 0 < i) (hik : i < k) (hk : k ≤ UInt64.size) :
    (Frame.after (crowdedRelease k).instrs).cell? (numbered i) = some i.toUInt32 := by
  have hne : (numbered i).id ≠ (numbered 0).id :=
    mt (id_numbered_eq_iff (Nat.lt_of_lt_of_le hik hk) (by decide)).1 (Nat.ne_of_gt hi)
  rw [after_crowdedRelease (Nat.zero_lt_of_lt hik) hk, Frame.cell?_eq_some_iff,
    Frame.binding?_released _ _ _ (binding?_crowd (Nat.zero_lt_of_lt hik) hk), if_neg hne]
  exact (Frame.crowded_after hk).live i hik

theorem step_crowdedRelease (hk : 0 < k) (hk' : k ≤ UInt64.size) (m : Nat) :
    Pass.step { fixedLocals := 0, frame := Frame.after (crowd k) } m (.release (numbered 0)) =
      .ok ({ fixedLocals := 0, frame := Frame.after (crowdedRelease k).instrs },
        some (.released (numbered 0) 0 (Frame.after (crowdedRelease k).instrs).nextFree)) := by
  rw [after_crowdedRelease hk hk']
  exact Pass.step_release_eq_ok_iff.2 ⟨0, binding?_crowd hk hk', rfl, rfl⟩

theorem reaches_crowdedRelease (hk : 0 < k) (hk' : k ≤ UInt64.size) :
    Pass.Reaches 0 (crowdedRelease k).instrs
      { fixedLocals := 0, frame := Frame.after (crowdedRelease k).instrs } :=
  (Pass.reaches_crowd hk' 0).snoc (step_crowdedRelease hk hk' _)

theorem lower_crowdedRelease (hk : UInt32.size ≤ k) (hk' : k ≤ UInt64.size) :
    ((crowdedRelease k).lower 0).result = .ok { frameSize := 0xffffffff } := by
  have hpos : 0 < k := Nat.lt_of_lt_of_le (by decide) hk
  rw [lower_of_reaches_frame (reaches_crowdedRelease hpos hk'), after_crowdedRelease hpos hk',
    Frame.released, (Frame.crowded_after hk').highWater_eq (Nat.le_succ_of_le hk)]

theorem released_mem_eventsAt (hk : 0 < k) (hk' : k ≤ UInt64.size) :
    .released (numbered 0) 0 (Frame.after (crowdedRelease k).instrs).nextFree ∈
      (crowdedRelease k).eventsAt 0 .trace := by
  have hrun : (Pass.run { fixedLocals := 0 } 0 (crowdedRelease k).instrs).1 =
      (Pass.run { fixedLocals := 0 } 0 (crowd k)).1 ++
        [.released (numbered 0) 0 (Frame.after (crowdedRelease k).instrs).nextFree] := by
    have hcrowd := Pass.reaches_iff_run.1 (Pass.reaches_crowd hk' 0)
    rw [crowdedRelease, Pass.run_append_events _ hcrowd, Pass.run, step_crowdedRelease hk hk']
    rfl
  refine List.mem_filter.2 ⟨?_, rfl⟩
  rw [events_of_reaches (reaches_crowdedRelease hk hk'), hrun]
  simp

/-- A release among `2 ^ 32` temporaries tells that the next free cell is the first, where the
highest cell is in use. -/
theorem released_crowd :
    let p := crowdedRelease UInt32.size
    (p.lower 0).result = .ok { frameSize := 0xffffffff } ∧
      .released (numbered 0) 0 0 ∈ p.eventsAt 0 .trace ∧
      (Frame.after p.instrs).Height UInt32.size := by
  have hsize : UInt32.size ≤ UInt64.size := by decide
  have hnext : (Frame.after (crowdedRelease UInt32.size).instrs).nextFree = 0 := by
    rw [Frame.nextFree, length_cells_crowdedRelease (by decide) hsize]
    rfl
  have hmem := released_mem_eventsAt (by decide) hsize
  rw [hnext] at hmem
  have htop : (Frame.after (crowdedRelease UInt32.size).instrs).cell? (numbered (UInt32.size - 1)) =
      some 0xffffffff := cell?_crowdedRelease (by decide) (by decide) hsize
  exact ⟨lower_crowdedRelease (Nat.le_refl _) hsize, hmem,
    .top htop fun u r _ => UInt32.le_iff_toNat_le.2 (Nat.le_of_lt_succ r.toNat_lt)⟩

end Program

end Assembler
