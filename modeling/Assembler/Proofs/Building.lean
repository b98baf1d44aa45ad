import Mathlib.Data.List.Nodup
import Assembler.Workspace
import Assembler.Proofs.Endings

/-!
# Programs built from one supply

Calls on the programs of a workspace make temporaries and labels, each with a number of its own. All
programs together hold one allocation for each temporary that was made, and one branch for each
label, however the calls are interleaved (`Workspace.accounts_of_built`). So the programs can be
joined in any order, and no temporary is allocated twice in what results
(`Workspace.units_apart_of_built`).
-/

namespace Assembler

/-! ## Things done twice -/

namespace Instr

/-- The number of the temporary that an instruction allocates. -/
def allocated? : Instr → Option UInt64
  | alloc t => some t.id
  | _ => none

/-- The label that an instruction places. -/
def placed? : Instr → Option Label
  | place label => some label
  | _ => none

end Instr

/-- A list that gives no value twice gives different ones at different places. -/
theorem ne_of_nodup_filterMap {α β : Type} {f : α → Option β} {xs : List α}
    (h : (xs.filterMap f).Nodup) {i j : Nat} {x y : α} {b : β} (hlt : i < j) (hi : xs[i]? = some x)
    (hj : xs[j]? = some y) (hx : f x = some b) : f y ≠ some b := by
  intro hy
  obtain ⟨hi', rfl⟩ := List.getElem?_eq_some_iff.1 hi
  obtain ⟨hj', rfl⟩ := List.getElem?_eq_some_iff.1 hj
  have hpairs := List.pairwise_iff_getElem.1 (List.pairwise_filterMap.1 h)
  exact hpairs i j hi' hj' hlt b hx b hy rfl

/-- The fault is that of something that may be done once only. -/
def Fault.isRepeat : Fault → Bool
  | slotAllocatedTwice _ | labelPlacedTwice _ => true
  | _ => false

theorem Fault.isRepeat_of_ofWriting {fault : Fault} (h : fault.ofWriting) :
    fault.isRepeat = false := by
  cases fault <;> first | rfl | cases h

/-- A program does something for the second time, which is the fault given. -/
inductive Repeated (is : List Instr) : Fault → Prop where
  | alloc {a k : Nat} {i : Instr} {t : Temp} (hlt : a < k) (ha : is[a]? = some i)
      (hi : i.allocated? = some t.id) (hk : is[k]? = some (.alloc t)) :
      Repeated is (.slotAllocatedTwice t.text)
  | place {a k : Nat} {label : Label} (hlt : a < k) (ha : is[a]? = some (.place label))
      (hk : is[k]? = some (.place label)) : Repeated is (.labelPlacedTwice label.text)

/-- The end of the pass has no such fault. -/
theorem Pass.failsOnly_finish (p : Pass) : FailsOnly (·.isRepeat = false) p.finish.2 := by
  unfold finish
  split
  next fault hres =>
    obtain ⟨-, f, -, -, hf, -⟩ := exists_of_mapM_eq_error hres
    split at hf
    · cases hf
    · cases hf
      exact .error rfl
  · have hcheck : FailsOnly (·.isRepeat = false) p.check := by
      unfold check
      split
      · exact .error rfl
      split
      · exact .error rfl
      split
      · exact .error rfl
      split
      · split
        · exact .error rfl
        · exact .ok _
      · exact .ok _
    exact hcheck.bind_pure _

namespace Program

variable {p : Program} {n : UInt32} {e : Failure}

theorem exists_failsAt_of_isRepeat (h : (p.lower n).result = .error e) (he : e.fault.isRepeat) :
    ∃ k, p.FailsAt n k e.fault := by
  by_contra hnone
  have hnot : ∀ k fault, ¬ p.FailsAt n k fault := by
    intro k fault hfails
    cases hfails.lower_eq.symm.trans h
    exact hnone ⟨k, hfails⟩
  obtain ⟨pass, hpass⟩ := exists_reaches_of_not_failsAt hnot
  rw [result_of_reaches hpass] at h
  cases hfinish : pass.finish.2 with
  | ok code =>
    rw [hfinish] at h
    cases h
  | error fault =>
    have hfault := pass.failsOnly_finish fault hfinish
    rw [hfinish] at h
    cases h
    rw [fault_failure, hfault] at he
    cases he

/-- A program with such a fault does something for the second time. -/
theorem repeated_of_lower (h : (p.lower n).result = .error e) (he : e.fault.isRepeat) :
    Repeated p.instrs e.fault := by
  obtain ⟨k, i, pass, hk, hpass, hstep⟩ := exists_failsAt_of_isRepeat h he
  have hledger := hpass.ledger
  generalize e.fault = fault at he hstep
  cases Pass.failsOnly_step hledger.fits k i fault hstep with
  | @bound t hbound =>
    rw [hledger.frame, ne_eq, Frame.binding?_after_eq_none_iff] at hbound
    obtain ⟨a, ha⟩ := not_forall_not.1 hbound
    obtain ⟨hlt, j, ha, hj⟩ := at_take.1 ha
    refine .alloc hlt ha ?_ hk
    cases j with
    | alloc u => exact congrArg some hj
    | _ => cases hj
  | @placed label hplaced =>
    rw [ne_eq, hledger.address?_eq_none_iff] at hplaced
    obtain ⟨a, ha⟩ := not_forall_not.1 hplaced
    rw [List.getElem?_take] at ha
    split at ha
    next hlt => exact .place hlt ha hk
    · cases ha
  | write _ hwrite =>
    rw [Fault.isRepeat_of_ofWriting hwrite] at he
    cases he
  | released | unbound => cases he

end Program

/-! ## Numbers drawn from a counter -/

/-- The numbers drawn from a counter that starts at zero, and the next one. -/
inductive Drawn : List UInt64 → UInt64 → Prop where
  | nil : Drawn [] 0
  | snoc {ids : List UInt64} {next : UInt64} (h : Drawn ids next) : Drawn (ids ++ [next]) (next + 1)

namespace Drawn

variable {ids : List UInt64} {next : UInt64}

theorem toNat_next (h : Drawn ids next) (hlt : ids.length < UInt64.size) :
    next.toNat = ids.length := by
  induction h with
  | nil => rfl
  | snoc h ih =>
    rw [List.length_append, List.length_singleton] at hlt ⊢
    rw [UInt64.toNat_add, ih (by omega)]
    exact Nat.mod_eq_of_lt hlt

theorem lt_of_mem (h : Drawn ids next) (hlt : ids.length < UInt64.size) :
    ∀ id ∈ ids, id < next := by
  induction h with
  | nil => simp
  | @snoc ids next h ih =>
    have hnext := h.snoc.toNat_next hlt
    rw [List.length_append, List.length_singleton] at hlt hnext
    have hlast := h.toNat_next (by omega)
    intro id hid
    rw [UInt64.lt_iff_toNat_lt, hnext, ← hlast]
    rcases List.mem_append.1 hid with hid | hid
    · exact Nat.lt_succ_of_lt (UInt64.lt_iff_toNat_lt.1 (ih (by omega) id hid))
    · rw [List.mem_singleton.1 hid]
      exact Nat.lt_succ_self _

/-- No number is drawn twice before the counter starts again. -/
theorem nodup (h : Drawn ids next) (hlt : ids.length < UInt64.size) : ids.Nodup := by
  induction h with
  | nil => exact List.nodup_nil
  | @snoc ids next h ih =>
    rw [List.length_append, List.length_singleton] at hlt
    have hnew : next ∉ ids :=
      fun hmem => UInt64.lt_irrefl next (h.lt_of_mem (by omega) next hmem)
    rw [← List.concat_eq_append]
    exact List.Nodup.concat hnew (ih (by omega))

end Drawn

/-! ## What a call adds -/

/-- The temporary handed out. -/
def Handle.temps : Handle → List Temp
  | var (.temp t) => [t]
  | _ => []

/-- The label handed out. -/
def Handle.labels : Handle → List Label
  | label l => [l]
  | _ => []

namespace Call

/-- The temporaries that a call makes, if it hands out `h`. A value that is in a variable already
needs none, and one that is made for a condition is not handed out. -/
def newTemps (s : Supply) (h : Handle) : Call → List Temp
  | allocate _ => h.temps
  | materialize _ slot _ => if slot.var?.isSome then [] else h.temps
  | branchIfSlot _ cond _ => if cond.var?.isSome then [] else [⟨s.temps, "cond"⟩]
  | _ => []

/-- The labels that a call makes, if it hands out `h`. -/
def newLabels (h : Handle) : Call → List Label
  | branch _ | branchIf .. | branchIfSlot .. => h.labels
  | _ => []

/-- Allocations and branches are added only by the calls that make what they name. -/
def Permitted : Call → Prop
  | add i => i.allocated? = none ∧ i.target? = none
  | _ => True

end Call

namespace Draft

/-- The second draft has instructions after those of the first that allocate `ts` and branch to
`ls`, all of them new. -/
structure Adds (d d' : Draft) (ts : List Temp) (ls : List Label) : Prop where
  instrs : ∃ js, d'.program.instrs = d.program.instrs ++ js ∧
    js.filterMap Instr.allocated? = ts.map Temp.id ∧ js.filterMap Instr.target? = ls
  temps : ∀ {ids}, Drawn ids d.supply.temps → Drawn (ids ++ ts.map Temp.id) d'.supply.temps
  labels : ∀ {ids}, Drawn ids d.supply.labels → Drawn (ids ++ ls.map Label.id) d'.supply.labels

theorem Adds.trans {d d' d'' : Draft} {ts us : List Temp} {ls ms : List Label}
    (h : Adds d d' ts ls) (h' : Adds d' d'' us ms) : Adds d d'' (ts ++ us) (ls ++ ms) := by
  obtain ⟨js, hjs, hallocs, hbranches⟩ := h.instrs
  obtain ⟨ks, hks, hallocs', hbranches'⟩ := h'.instrs
  refine ⟨⟨js ++ ks, ?_, ?_, ?_⟩, fun hids => ?_, fun hids => ?_⟩
  · rw [hks, hjs, List.append_assoc]
  · rw [List.filterMap_append, List.map_append, hallocs, hallocs']
  · rw [List.filterMap_append, hbranches, hbranches']
  · rw [List.map_append, ← List.append_assoc]
    exact h'.temps (h.temps hids)
  · rw [List.map_append, ← List.append_assoc]
    exact h'.labels (h.labels hids)

variable (d : Draft)

theorem Adds.refl : Adds d d [] [] where
  instrs := ⟨[], by simp⟩
  temps h := by simpa using h
  labels h := by simpa using h

/-- Instructions of other kinds make nothing. -/
theorem adds_append (js : List Instr) (hallocs : js.filterMap Instr.allocated? = [])
    (hbranches : js.filterMap Instr.target? = []) :
    Adds d { d with program := d.program.append ⟨js⟩ } [] [] where
  instrs := ⟨js, rfl, hallocs, hbranches⟩
  temps h := by simpa using h
  labels h := by simpa using h

theorem adds_allocate (name : String) :
    Adds d (d.allocate name).1 [⟨d.supply.temps, name⟩] [] where
  instrs := ⟨_, rfl, rfl, rfl⟩
  temps h := h.snoc
  labels h := by
    rw [List.map_nil, List.append_nil]
    exact h

/-- A branch to a new label. -/
theorem adds_newLabel {i : Instr} (hallocs : i.allocated? = none)
    (htarget : i.target? = some d.newLabel.2) :
    Adds d (d.newLabel.1.add i) [] [d.newLabel.2] where
  instrs := ⟨[i], rfl, by simp [hallocs], by simp [htarget]⟩
  temps h := by
    rw [List.map_nil, List.append_nil]
    exact h
  labels h := h.snoc

theorem adds_materialize (loc : Position) (s : Slot) (name : String) :
    Adds d (d.materialize loc s name).1
      (if s.var?.isSome then [] else [⟨d.supply.temps, name⟩]) [] := by
  unfold materialize
  cases hvar : s.var? with
  | some v => exact .refl d
  | none => exact (d.adds_allocate name).trans (adds_append _ [_] rfl rfl)

theorem adds_placeAll (labels : List Label) : Adds d (d.placeAll labels) [] [] := by
  refine d.adds_append _ ?_ ?_
  · rw [List.filterMap_map]
    exact List.filterMap_eq_nil_iff.2 fun _ _ => rfl
  · rw [List.filterMap_map]
    exact List.filterMap_eq_nil_iff.2 fun _ _ => rfl

/-- A call adds one allocation for each temporary that it makes and one branch for each label. -/
theorem adds_call {c : Call} (hc : c.Permitted) :
    Adds d (d.call c).1 (c.newTemps d.supply (d.call c).2) (c.newLabels (d.call c).2) := by
  cases c with
  | allocate name => exact d.adds_allocate name
  | release t => exact d.adds_append [.release t] rfl rfl
  | materialize loc s name =>
    have hmade :
        (Call.materialize loc s name).newTemps d.supply (d.call (.materialize loc s name)).2 =
          if s.var?.isSome then [] else [⟨d.supply.temps, name⟩] := by
      cases hvar : s.var? with
      | some v => simp [Call.newTemps, hvar]
      | none =>
        simp only [Call.newTemps, Draft.call, materialize, hvar]
        rfl
    rw [hmade]
    exact d.adds_materialize loc s name
  | branch loc => exact d.adds_newLabel rfl rfl
  | branchIf loc cond test => exact d.adds_newLabel rfl rfl
  | branchIfSlot loc cond test =>
    have hbranch := adds_newLabel (d.materialize loc cond "cond").1
      (i := .branchIf loc (d.materialize loc cond "cond").2 test _) rfl rfl
    have h := (d.adds_materialize loc cond "cond").trans hbranch
    rwa [List.append_nil, List.nil_append] at h
  | placeAll labels => exact d.adds_placeAll labels
  | forInit loc collection item =>
    exact d.adds_append [.forInit loc collection item] rfl rfl
  | forClose loc => exact d.adds_append [.forClose loc] rfl rfl
  | add i => exact d.adds_append [i] (by simp [hc.1]) (by simp [hc.2])

end Draft

/-! ## Workspaces -/

namespace Workspace

/-- The instructions of all programs. -/
def instrs (w : Workspace) : List Instr :=
  w.units.flatMap (·.2.instrs)

/-- The workspace can be built by calls that make the temporaries `ts` and the labels `ls`. A new
program gets a name that is free, so that no program is lost, and no program is held twice. -/
inductive Built : List Temp → List Label → Workspace → Prop where
  | empty : Built [] [] {}
  | create {ts : List Temp} {ls : List Label} {w : Workspace} (h : Built ts ls w) (name : String)
      (hname : w.unit? name = none) : Built ts ls (w.put name {})
  | call {ts : List Temp} {ls : List Label} {w w' : Workspace} {handle : Handle}
      (h : Built ts ls w) (name : String) (c : Call) (hc : c.Permitted)
      (hcall : w.call? name c = some (w', handle)) :
      Built (ts ++ c.newTemps w.supply handle) (ls ++ c.newLabels handle) w'
  | append {ts : List Temp} {ls : List Label} {w w' : Workspace} (h : Built ts ls w)
      (name other : String) (happend : w.append? name other = some w') : Built ts ls w'

variable {w w' : Workspace} {name : String} {p : Program}

/-! ### Names -/

/-- No name is given twice. -/
def Named (w : Workspace) : Prop :=
  (w.units.map Prod.fst).Nodup

theorem Named.erase (h : w.Named) (name : String) : (w.erase name).Named :=
  (List.filter_sublist.map Prod.fst).nodup h

theorem Named.put (h : w.Named) (name : String) (p : Program) : (w.put name p).Named := by
  refine List.nodup_cons.2 ⟨?_, h.erase name⟩
  simp [Workspace.erase]

/-- Only the programs of the name are taken out. -/
theorem filter_eq_self_of_ne {us : List (String × Program)} (h : ∀ u ∈ us, name != u.1) :
    us.filter (·.1 != name) = us :=
  List.filter_eq_self.2 fun u hu => bne_comm.trans (h u hu)

theorem erase_of_unit?_eq_none (h : w.unit? name = none) : w.erase name = w := by
  rw [erase, filter_eq_self_of_ne (List.lookup_eq_none_iff.1 h)]

/-- The named program and all others are the whole of the workspace. -/
theorem Named.units_perm (h : w.Named) (hp : w.unit? name = some p) :
    w.units.Perm ((name, p) :: (w.erase name).units) := by
  obtain ⟨us, vs, hunits, hus⟩ := List.lookup_eq_some_iff.1 hp
  have hvs : ∀ v ∈ vs, name != v.1 := by
    rw [Named, hunits, List.map_append, List.map_cons] at h
    have hname : name ∉ vs.map Prod.fst := (List.nodup_cons.1 (List.nodup_append.1 h).2.1).1
    intro v hv
    rw [bne_iff_ne]
    rintro rfl
    exact hname (List.mem_map_of_mem hv)
  have herase : (w.erase name).units = us ++ vs := by
    show w.units.filter (·.1 != name) = us ++ vs
    rw [hunits, List.filter_append, List.filter_cons_of_neg (by simp), filter_eq_self_of_ne hus,
      filter_eq_self_of_ne hvs]
  rw [herase, hunits]
  exact List.perm_middle

theorem Named.instrs_perm (h : w.Named) (hp : w.unit? name = some p) :
    w.instrs.Perm (p.instrs ++ (w.erase name).instrs) :=
  (h.units_perm hp).flatMap_right _

/-! ### Temporaries and labels in all programs -/

/-- The numbers of `ts` and `ls` were drawn from the supply, and the programs together allocate each
of `ts` and branch to each of `ls`. -/
structure Accounts (ts : List Temp) (ls : List Label) (w : Workspace) : Prop where
  named : w.Named
  temps : Drawn (ts.map Temp.id) w.supply.temps
  labels : Drawn (ls.map Label.id) w.supply.labels
  allocs : (w.instrs.filterMap Instr.allocated?).Perm (ts.map Temp.id)
  branches : (w.instrs.filterMap Instr.target?).Perm ls

theorem Accounts.create {ts : List Temp} {ls : List Label} (h : Accounts ts ls w)
    (hname : w.unit? name = none) : Accounts ts ls (w.put name {}) := by
  have hinstrs : (w.put name {}).instrs = w.instrs := by
    show [] ++ (w.erase name).instrs = w.instrs
    rw [erase_of_unit?_eq_none hname, List.nil_append]
  exact ⟨h.named.put name {}, h.temps, h.labels, hinstrs ▸ h.allocs, hinstrs ▸ h.branches⟩

theorem Accounts.call {ts : List Temp} {ls : List Label} {c : Call} {handle : Handle}
    (h : Accounts ts ls w) (hc : c.Permitted) (hcall : w.call? name c = some (w', handle)) :
    Accounts (ts ++ c.newTemps w.supply handle) (ls ++ c.newLabels handle) w' := by
  obtain ⟨p, hp, heq⟩ := Option.bind_eq_some_iff.1 hcall
  cases heq
  have hadds := Draft.adds_call ⟨w.supply, p⟩ hc
  obtain ⟨js, hjs, hallocs, hbranches⟩ := hadds.instrs
  -- the new instructions are at the end of one program, and all else is as before
  have hinstrs : ((Draft.call ⟨w.supply, p⟩ c).1.program.instrs ++ (w.erase name).instrs).Perm
      (w.instrs ++ js) := by
    rw [hjs, List.append_assoc]
    refine (List.perm_append_comm.append_left p.instrs).trans ?_
    rw [← List.append_assoc]
    exact (h.named.instrs_perm hp).symm.append_right js
  refine ⟨Named.put (w := { w with supply := _ }) h.named name _, ?_, ?_, ?_, ?_⟩
  · rw [List.map_append]
    exact hadds.temps h.temps
  · rw [List.map_append]
    exact hadds.labels h.labels
  · refine (hinstrs.filterMap _).trans ?_
    rw [List.filterMap_append, List.map_append, hallocs]
    exact h.allocs.append_right _
  · refine (hinstrs.filterMap _).trans ?_
    rw [List.filterMap_append, hbranches]
    exact h.branches.append_right _

theorem Accounts.append {ts : List Temp} {ls : List Label} {other : String} (h : Accounts ts ls w)
    (happend : w.append? name other = some w') : Accounts ts ls w' := by
  obtain ⟨q, hq, happend⟩ := Option.bind_eq_some_iff.1 happend
  obtain ⟨p, hp, heq⟩ := Option.bind_eq_some_iff.1 happend
  cases heq
  have hrest := (h.named.erase other).instrs_perm hp
  have hinstrs : ((p.instrs ++ q.instrs) ++ ((w.erase other).erase name).instrs).Perm w.instrs := by
    rw [List.append_assoc]
    refine List.perm_append_comm_assoc _ _ _ |>.trans ?_
    exact (hrest.symm.append_left q.instrs).trans (h.named.instrs_perm hq).symm
  exact ⟨(h.named.erase other).put name _, h.temps, h.labels,
    (hinstrs.filterMap _).trans h.allocs, (hinstrs.filterMap _).trans h.branches⟩

/-- All programs together hold one allocation for each temporary and one branch for each label. -/
theorem accounts_of_built {ts : List Temp} {ls : List Label} (h : Built ts ls w) :
    Accounts ts ls w := by
  induction h with
  | empty => exact ⟨List.nodup_nil, .nil, .nil, .nil, .nil⟩
  | create _ name hname ih => exact ih.create hname
  | call _ name c hc hcall ih => exact ih.call hc hcall
  | append _ name other happend ih => exact ih.append happend

end Workspace

/-! ## Joining all programs -/

/-- Programs one after another. -/
def Program.concat (ps : List Program) : Program :=
  ps.foldl append {}

theorem Program.instrs_concat (ps : List Program) :
    (concat ps).instrs = ps.flatMap (·.instrs) := by
  have hfold (p : Program) : (ps.foldl append p).instrs = p.instrs ++ ps.flatMap (·.instrs) := by
    induction ps generalizing p with
    | nil => simp
    | cons q ps ih => rw [List.foldl_cons, ih, append, List.flatMap_cons, List.append_assoc]
  exact (hfold {}).trans (List.nil_append _)

namespace Workspace

/-- Programs that are built side by side from one supply never collide, as long as the numbers last.
Each temporary is allocated once in all of them together, and each label is the target of one
branch. So they can be joined in any order: no temporary is then allocated twice, and no label is
placed twice, unless that was done by the calls. -/
theorem units_apart_of_built {ts : List Temp} {ls : List Label} {w : Workspace}
    (h : Built ts ls w) (hmade : ts.length + ls.length < UInt64.size) :
    (ts.map Temp.id).Nodup ∧ ls.Nodup ∧
      (∀ id, (w.instrs.filterMap Instr.allocated?).count id =
        if id ∈ ts.map Temp.id then 1 else 0) ∧
      (∀ label, (w.instrs.filterMap Instr.target?).count label =
        if label ∈ ls then 1 else 0) ∧
      ∀ ps n e, ps.Perm (w.units.map Prod.snd) → ((Program.concat ps).lower n).result = .error e →
        (∀ slot, e.fault ≠ .slotAllocatedTwice slot) ∧
          ((w.instrs.filterMap Instr.placed?).Nodup →
            ∀ label, e.fault ≠ .labelPlacedTwice label) := by
  have haccounts := accounts_of_built h
  have htemps : (ts.map Temp.id).Nodup :=
    haccounts.temps.nodup (by rw [List.length_map]; omega)
  have hlabels : ls.Nodup :=
    (haccounts.labels.nodup (by rw [List.length_map]; omega)).of_map _
  refine ⟨htemps, hlabels, fun id => ?_, fun label => ?_, fun ps n e hps he => ?_⟩
  · rw [haccounts.allocs.count_eq, htemps.count]
  · rw [haccounts.branches.count_eq, hlabels.count]
  · have hinstrs : (Program.concat ps).instrs.Perm w.instrs := by
      have hunits := hps.flatMap_right Program.instrs
      rwa [List.flatMap_map, ← Program.instrs_concat] at hunits
    constructor
    · intro slot hslot
      have hnodup := ((hinstrs.filterMap _).trans haccounts.allocs).nodup_iff.2 htemps
      cases hslot ▸ Program.repeated_of_lower he (by rw [hslot]; rfl) with
      | alloc hlt ha hi hk => exact ne_of_nodup_filterMap hnodup hlt ha hk hi rfl
    · intro hplaced label hlabel
      have hnodup := (hinstrs.filterMap _).nodup_iff.2 hplaced
      cases hlabel ▸ Program.repeated_of_lower he (by rw [hlabel]; rfl) with
      | place hlt ha hk => exact ne_of_nodup_filterMap hnodup hlt ha hk rfl rfl

/-- Two programs built in turns. One of them branches on a constant, for which a temporary is made,
and places the label. -/
def inTurns : Workspace where
  supply := ⟨3, 1⟩
  units :=
    [("right", ⟨[.alloc ⟨0, "x"⟩, .alloc ⟨2, "y"⟩]⟩),
      ("left", ⟨[.alloc ⟨1, "cond"⟩,
        .copy ⟨1, 1⟩ (.const (.int 1)) (.temp ⟨1, "cond"⟩),
        .branchIf ⟨1, 1⟩ (.temp ⟨1, "cond"⟩) .whenTrue ⟨0⟩,
        .place ⟨0⟩]⟩)]

theorem built_inTurns : Built [⟨0, "x"⟩, ⟨1, "cond"⟩, ⟨2, "y"⟩] [⟨0⟩] inTurns :=
  Built.empty
    |>.create "left" rfl
    |>.create "right" rfl
    |>.call "right" (.allocate "x") trivial rfl
    |>.call "left" (.branchIfSlot ⟨1, 1⟩ (.const (.int 1)) .whenTrue) trivial rfl
    |>.call "left" (.placeAll [⟨0⟩]) trivial rfl
    |>.call "right" (.allocate "y") trivial rfl

theorem units_apart_of_built_inTurns :
    Built [⟨0, "x"⟩, ⟨1, "cond"⟩, ⟨2, "y"⟩] [⟨0⟩] inTurns ∧
      (inTurns.instrs.filterMap Instr.placed?).Nodup ∧
      ∀ ps n e, ps.Perm (inTurns.units.map Prod.snd) →
        ((Program.concat ps).lower n).result = .error e →
        ∀ text, e.fault ≠ .slotAllocatedTwice text ∧ e.fault ≠ .labelPlacedTwice text := by
  have hplaced : (inTurns.instrs.filterMap Instr.placed?).Nodup := by decide
  obtain ⟨-, -, -, -, hjoin⟩ := units_apart_of_built built_inTurns (by decide)
  refine ⟨built_inTurns, hplaced, fun ps n e hps he text => ?_⟩
  obtain ⟨hslot, hlabel⟩ := hjoin ps n e hps he
  exact ⟨hslot text, hlabel hplaced text⟩

end Workspace

end Assembler
