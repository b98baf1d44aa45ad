import Assembler.Proofs.Addresses
import Assembler.Proofs.Constants
import Assembler.Proofs.Overflow
import Assembler.Proofs.Sharing
import Assembler.Proofs.Stacking

/-!
# Programs joined end to end

Programs name no addresses, so the code of one after another is the code of the two, one after the
other, with the words of the second changed to where it stands (`Program.lower_append`): its
addresses grow by the size of the first, its temporaries are above the cells that the first still
occupies, and its constants are looked up in a pool they share. No other word is changed.

The two must not share temporaries or labels (`Apart`). Joining them can fail, but only because the
number of a cell or of a constant becomes too large (`Program.exists_overflow_of_append`).
-/

namespace Assembler

/-! ## Programs that share nothing -/

/-- The temporary that an operand word is for. -/
def Role.temp? : Role → Option Temp
  | slot (.var (.temp t)) => some t
  | _ => none

/-- The temporaries that an instruction names. -/
def Instr.temps : Instr → List Temp
  | alloc t | release t => [t]
  | i => i.roles.filterMap Role.temp?

/-- The labels that an instruction names. -/
def Instr.labels : Instr → List Label
  | place label => [label]
  | i => i.target?.toList

/-- The two programs name no temporary and no label in common. -/
structure Apart (is js : List Instr) : Prop where
  temps : ∀ t ∈ is.flatMap Instr.temps, ∀ u ∈ js.flatMap Instr.temps, t.id ≠ u.id
  labels : ∀ label ∈ is.flatMap Instr.labels, label ∉ js.flatMap Instr.labels

theorem Instr.mem_temps_of_mem_roles {i : Instr} {t : Temp}
    (h : .slot (.var (.temp t)) ∈ i.roles) : t ∈ i.temps := by
  cases i with
  | alloc u => cases h
  | release u => cases h
  | _ => exact List.mem_filterMap.2 ⟨_, h, rfl⟩

theorem Instr.exists_mem_temps {i : Instr} {t : Temp} (h : i.Allocs t ∨ i.Releases t) :
    ∃ u ∈ i.temps, u.id = t.id := by
  rcases h with h | h
  · cases i with
    | alloc u => exact ⟨u, List.mem_cons_self, h⟩
    | _ => cases h
  · cases i with
    | release u => exact ⟨u, List.mem_cons_self, h⟩
    | _ => cases h

theorem UsesAt.mem_temps {is : List Instr} {k : Nat} {t : Temp}
    (h : UsesAt is k (.var (.temp t))) : t ∈ is.flatMap Instr.temps := by
  rcases h with ⟨i, hk, hmem⟩ | ⟨a, loc, collection, item, -, ha, heq⟩
  · exact List.mem_flatMap.2 ⟨i, List.mem_of_getElem? hk, Instr.mem_temps_of_mem_roles hmem⟩
  · cases heq
    refine List.mem_flatMap.2 ⟨_, List.mem_of_getElem? ha, Instr.mem_temps_of_mem_roles ?_⟩
    exact List.mem_cons_of_mem _ List.mem_cons_self

theorem Instr.mem_labels_of_target? {i : Instr} {label : Label} (h : i.target? = some label) :
    label ∈ i.labels := by
  cases i with
  | branch | branchIf => exact Option.mem_toList.2 h
  | _ => cases h

namespace Apart

variable {is js : List Instr} {t u : Temp}

/-- The first program leaves the temporaries of the second unbound. -/
theorem binding?_eq_none (h : Apart is js) (hu : u ∈ js.flatMap Instr.temps) (hid : u.id = t.id) :
    (Frame.after is).binding? t = none := by
  refine Frame.binding?_after_eq_none_iff.2 fun a ha => ?_
  obtain ⟨i, hi, hallocs⟩ := ha
  obtain ⟨v, hv, hvid⟩ := Instr.exists_mem_temps (Or.inl hallocs)
  have hmem : v ∈ is.flatMap Instr.temps := List.mem_flatMap.2 ⟨i, List.mem_of_getElem? hi, hv⟩
  exact h.temps v hmem u hu (hvid.trans hid.symm)

/-- The first program does not place the labels of the second. -/
theorem ne_place (h : Apart is js) {j : Instr} {label : Label} (hj : j ∈ js)
    (hlabel : label ∈ j.labels) (m : Nat) : is[m]? ≠ some (.place label) := by
  intro hm
  have hmem : label ∈ is.flatMap Instr.labels :=
    List.mem_flatMap.2 ⟨_, List.mem_of_getElem? hm, List.mem_cons_self⟩
  exact h.labels label hmem (List.mem_flatMap.2 ⟨j, hj, hlabel⟩)

end Apart

/-! ## The second program after the first -/

/-- Two programs that can be lowered, share nothing, and have cells enough for both. -/
structure Joinable (n : UInt32) (is js : List Instr) : Prop where
  first : WellFormed n is
  second : WellFormed n js
  apart : Apart is js
  allocs : allocations is + allocations js < UInt32.size

namespace Joinable

variable {n : UInt32} {is js : List Instr} {i : Instr} {p : Pass} {k : Nat} {t : Temp}

theorem neverWraps (h : Joinable n is js) : Frame.NeverWraps (is ++ js) := by
  apply Frame.neverWraps_of_allocations
  rw [allocations_append]
  exact h.allocs

theorem neverWraps_second (h : Joinable n is js) : Frame.NeverWraps js :=
  Frame.neverWraps_of_allocations (Nat.lt_of_le_of_lt (Nat.le_add_left _ _) h.allocs)

theorem balanced (h : Joinable n is js) : Balanced (is ++ js) :=
  h.first.balanced.append h.second.balanced

/-- At every instruction of the second program, its frame is on top of what the first one left. -/
theorem stacked (h : Joinable n is js) (k : Nat) :
    Frame.Stacked (Frame.after is) (Frame.after (js.take k)) (Frame.after (is ++ js.take k)) := by
  have htake := List.take_prefix k js
  refine Frame.stacked_after (h.neverWraps.of_isPrefix ((List.prefix_append_right_inj is).2 htake))
    (h.neverWraps_second.of_isPrefix htake) fun j hj u hu => ?_
  obtain ⟨v, hv, hid⟩ := Instr.exists_mem_temps hu
  exact h.apart.binding?_eq_none (List.mem_flatMap.2 ⟨j, List.mem_of_mem_take hj, hv⟩) hid

/-- A temporary of the second program has the same index after the first one, counted from the cells
that this one occupies. -/
theorem index?_temp (h : Joinable n is js) (ht : t ∈ js.flatMap Instr.temps) (k : Nat) :
    (Var.temp t).index? n (Frame.after (is ++ js.take k)) =
      ((Var.temp t).index? n (Frame.after (js.take k))).map
        (· + (Frame.after is).cells.length) := by
  have htake := List.take_prefix k js
  exact (h.stacked k).index?_temp
    (Frame.coherent_after (h.neverWraps_second.of_isPrefix htake))
    (h.neverWraps _ ((List.prefix_append_right_inj is).2 htake)) n (h.apart.binding?_eq_none ht rfl)

/-- A variable that the second program uses has an index after the first one, too. -/
theorem exists_index? (h : Joinable n is js) {v : Var} (hv : UsesAt js k (.var v)) :
    ∃ index, v.index? n (Frame.after (is ++ js.take k)) = some index := by
  obtain ⟨place, hplace, -⟩ := h.second.exists_place hv
  obtain ⟨index, hindex, -⟩ := Option.map_eq_some_iff.1 hplace
  cases v with
  | fixed l => exact ⟨index, hindex⟩
  | temp t =>
    rw [h.index?_temp hv.mem_temps, hindex]
    exact ⟨_, rfl⟩

/-- A label that the second program places later has no address yet. -/
theorem address?_eq_none (h : Joinable n is js) (hp : Pass.Ledger n (is ++ js.take k) p)
    {label : Label} (hi : i ∈ js) (hlabel : label ∈ i.labels)
    (hlater : ∀ l : Nat, js[l]? = some (.place label) → k ≤ l) :
    p.jumps.address? label = none := by
  refine hp.address?_eq_none_iff.2 fun m hm => ?_
  rcases Nat.lt_or_ge m is.length with hlt | hge
  · rw [List.getElem?_append_left hlt] at hm
    exact h.apart.ne_place hi hlabel m hm
  · rw [List.getElem?_append_right hge, List.getElem?_take] at hm
    split at hm
    next hlt => exact absurd (hlater _ hm) (Nat.not_le_of_lt hlt)
    · cases hm

/-- The loop that the second program closes is its own. -/
theorem exists_matched (h : Joinable n is js) (hp : Pass.Ledger n (is ++ js.take k) p)
    {loc : Position} (hk : js[k]? = some (.forClose loc)) :
    ∃ a loc' collection, p.jumps.loops ≠ [] ∧ Matched js a k ∧
      js[a]? = some (.forInit loc' collection p.inner.item) := by
  rw [← List.take_length_add_append] at hp
  rw [← getElem?_append_length_add is] at hk
  obtain ⟨e, hne, he, hmatched, loc', collection, hinit⟩ := hp.exists_matched h.balanced hk
  obtain ⟨a, ha, hmatched⟩ := hmatched.exists_of_append h.second.balanced
  rw [ha, getElem?_append_length_add] at hinit
  exact ⟨a, loc', collection, hne, hmatched, by rwa [he]⟩

theorem known (h : Joinable n is js) (hp : Pass.Ledger n (is ++ js.take k) p) (hk : js[k]? = some i)
    {role : Role} (hrole : role ∈ i.roles) : (role.field i.loc p.inner).Known p := by
  have hvar {v : Var} (hv : UsesAt js k (.var v)) : (Field.slot (.var v)).Known p := by
    rw [Field.Known, hp.fixedLocals, hp.frame]
    exact h.exists_index? hv
  cases role with
  | slot s =>
    cases s with
    | var v => exact hvar (Or.inl ⟨i, hk, hrole⟩)
    | _ => trivial
  | target label =>
    have htarget := Instr.target?_eq_some_iff.2 hrole
    obtain ⟨l, hlt, hl⟩ := h.second.place_after_branch hk htarget
    refine h.address?_eq_none hp (List.mem_of_getElem? hk) (Instr.mem_labels_of_target? htarget)
      fun l' hl' => ?_
    rw [h.second.place_once hl' hl]
    exact Nat.le_of_lt hlt
  | loopItem =>
    obtain ⟨loc, rfl⟩ := eq_forClose_of_mem_roles (Or.inl hrole)
    obtain ⟨a, loc', collection, -, hmatched, hinit⟩ := h.exists_matched hp hk
    exact hvar (Or.inr ⟨a, loc', collection, _, hmatched, hinit, rfl⟩)
  | word | loopEnd | loopStart => trivial

/-- What a step of the second program finds on its own it finds after the first program, too. -/
theorem ready (h : Joinable n is js) (hk : js[k]? = some i)
    (hp : Pass.Reaches n (is ++ js.take k) p) : p.Ready i := by
  have hledger := hp.ledger
  have hmem := List.mem_of_getElem? hk
  have hunbound {t : Temp} (ht : t ∈ i.temps) : (Frame.after is).binding? t = none :=
    h.apart.binding?_eq_none (List.mem_flatMap.2 ⟨i, hmem, ht⟩) rfl
  obtain ⟨q, hq⟩ := h.second.exists_reaches (Nat.le_refl _)
  rw [List.take_length] at hq
  refine ⟨h.second.formed i hmem, ?_, ?_, ?_, ?_, h.known hledger hk⟩
  · rintro t rfl
    rw [hledger.frame, (h.stacked k).binding? (hunbound List.mem_cons_self),
      hq.binding?_eq_none ⟨_, hk, rfl⟩]
    rfl
  · rintro t rfl
    obtain ⟨r, hr⟩ := hq.exists_cell? ⟨_, hk, rfl⟩
    rw [hledger.frame, (h.stacked k).cell? (hunbound List.mem_cons_self), hr]
    exact ⟨_, rfl⟩
  · rintro label rfl
    exact h.address?_eq_none hledger hmem List.mem_cons_self fun l hl =>
      Nat.le_of_eq (h.second.place_once hk hl)
  · rintro loc rfl
    obtain ⟨-, -, -, hne, -⟩ := h.exists_matched hledger hk
    exact hne

/-- Every label that the joined programs branch to is placed. -/
theorem exists_place (h : Joinable n is js) (hk : (is ++ js)[k]? = some i) {label : Label}
    (htarget : i.target? = some label) : ∃ t : Nat, (is ++ js)[t]? = some (.place label) := by
  rcases Nat.lt_or_ge k is.length with hlt | hge
  · rw [List.getElem?_append_left hlt] at hk
    obtain ⟨t, -, ht⟩ := h.first.place_after_branch hk htarget
    exact ⟨t, by rwa [List.getElem?_append_left (List.getElem?_eq_some_iff.1 ht).1]⟩
  · rw [List.getElem?_append_right hge] at hk
    obtain ⟨t, -, ht⟩ := h.second.place_after_branch hk htarget
    exact ⟨is.length + t, by rwa [getElem?_append_length_add]⟩

/-- A step of the joined programs fails by overflow only. -/
theorem onlyOverflows_step (h : Joinable n is js) (hk : (is ++ js)[k]? = some i)
    (hp : Pass.Reaches n ((is ++ js).take k) p) : OnlyOverflows (p.step k i) := by
  rcases Nat.lt_or_ge k is.length with hlt | hge
  · -- the first program is written as on its own
    rw [List.getElem?_append_left hlt] at hk
    rw [List.take_append_of_le_length (Nat.le_of_lt hlt)] at hp
    obtain ⟨q, hq⟩ := h.first.exists_reaches (Nat.le_refl _)
    rw [List.take_length] at hq
    obtain ⟨p', r, event, hp', hstep⟩ := hq.step_at hk
    obtain rfl := hp'.unique hp
    rw [hstep]
    exact .ok _
  · obtain ⟨l, rfl⟩ : ∃ l, k = is.length + l := ⟨k - is.length, by omega⟩
    rw [getElem?_append_length_add] at hk
    rw [List.take_length_add_append] at hp
    exact (h.ready hk hp).onlyOverflows_step hp.ledger.fits _

end Joinable

/-! ## Words of the joined code -/

/-- Operand word number `m` of instruction number `k` is the address operand of its opcode. -/
def AddressAt (is : List Instr) (k m : Nat) : Prop :=
  ∃ i op, is[k]? = some i ∧ i.opcode? = some op ∧ op.address? = some m

/-- Operand word number `m` of instruction number `k` of the program `js` is `w` in its own code `c`
and `w'` in the code `c'`, in which it stands `base` words further on, and `R` holds of the two. -/
def Moved (js : List Instr) (base : Nat) (c c' : Code) (k m : Nat) (R : UInt32 → UInt32 → Prop) :
    Prop :=
  ∃ w w', c.wordAt? (offsetOf js k + 1 + m) = some w ∧
    c'.wordAt? (base + (offsetOf js k + 1 + m)) = some w' ∧ R w w'

section Words

variable {n : UInt32} {is js : List Instr} {i : Instr} {c c' : Code} {k m : Nat}

theorem Moved.imp {base : Nat} {R S : UInt32 → UInt32 → Prop} (h : Moved js base c c' k m R)
    (hRS : ∀ {w w'}, R w w' → S w w') : Moved js base c c' k m S := by
  obtain ⟨w, w', hw, hw', hR⟩ := h
  exact ⟨w, w', hw, hw', hRS hR⟩

theorem LabelAddress.append {label : Label} {w : UInt32} (h : LabelAddress is label w)
    (js : List Instr) : LabelAddress (is ++ js) label w := by
  obtain ⟨t, ht, rfl⟩ := h
  have hlt := (List.getElem?_eq_some_iff.1 ht).1
  exact ⟨t, by rwa [List.getElem?_append_left hlt],
    by rw [offsetOf_append js (Nat.le_of_lt hlt)]⟩

/-- What comes later does not change the words of the first program. -/
theorem Image.wordAt?_append_left (h : Image n is (LabelAddress is) c)
    (h' : Image n (is ++ js) (LabelAddress (is ++ js)) c') (hwf : WellFormed n is)
    (hwf' : WellFormed n (is ++ js)) {offset : Nat} (hlt : offset < span is) :
    c'.wordAt? offset = c.wordAt? offset := by
  obtain ⟨k, i, op, hk, hop, hcases⟩ := exists_of_lt_span hwf.formed hlt
  have hklt := (List.getElem?_eq_some_iff.1 hk).1
  have hk' : (is ++ js)[k]? = some i := by rwa [List.getElem?_append_left hklt]
  have hoffset := offsetOf_append js (Nat.le_of_lt hklt)
  rcases hcases with rfl | ⟨m, role, hm, rfl⟩
  · rw [(h k).opcode hk hop, ← hoffset, (h' k).opcode hk' hop]
  · obtain ⟨w, hw, hmeans⟩ := (h k).operand hk hm
    obtain ⟨w', hw', hmeans'⟩ := (h' k).operand hk' hm
    -- the word of the first program is right for the joined ones, and only one word is
    have hjoint : role.Means n (is ++ js) (LabelAddress (is ++ js)) k w := by
      refine hmeans.append hklt (fun hlabel => hlabel.append js) ?_
      rintro rfl j hj
      obtain ⟨loc, collection, item, rfl⟩ := eq_forInit_of_mem_roles (List.mem_of_getElem? hm)
      obtain ⟨j', hj'⟩ := hwf.balanced.exists_matched hk
      rw [hj.right_unique (hj'.append js)]
      exact hj'.lt_length
    rw [hw, ← hoffset, hw', hwf'.means_unique hk' hm hmeans' hjoint]

/-- The word for a role of the second program, in its own code and in that of the two. -/
theorem Image.moved (h : Image n js (LabelAddress js) c)
    (h' : Image n (is ++ js) (LabelAddress (is ++ js)) c') {role : Role} (hk : js[k]? = some i)
    (hm : i.roles[m]? = some role) :
    Moved js (span is) c c' k m fun w w' =>
      role.Means n js (LabelAddress js) k w ∧
        role.Means n (is ++ js) (LabelAddress (is ++ js)) (is.length + k) w' := by
  obtain ⟨w, hw, hmeans⟩ := (h k).operand hk hm
  rw [← getElem?_append_length_add is] at hk
  obtain ⟨w', hw', hmeans'⟩ := (h' _).operand hk hm
  rw [offsetOf_append_right, Nat.add_assoc, Nat.add_assoc, ← Nat.add_assoc (offsetOf js k)] at hw'
  exact ⟨w, w', hw, hw', hmeans, hmeans'⟩

/-- The addresses of the second program grow by the size of the first. -/
theorem Image.moved_address (h : Image n js (LabelAddress js) c)
    (h' : Image n (is ++ js) (LabelAddress (is ++ js)) c') (hwf : WellFormed n js)
    (hwf' : WellFormed n (is ++ js)) (hsize : span is + span js < UInt32.size)
    (hm : AddressAt js k m) :
    Moved js (span is) c c' k m fun w w' => w'.toNat = w.toNat + span is := by
  obtain ⟨i, op, hk, hop, hm⟩ := hm
  have haddress (l : Nat) :
      (offsetOf (is ++ js) (is.length + l)).toUInt32.toNat =
        (offsetOf js l).toUInt32.toNat + span is := by
    have hle := offsetOf_le_span js l
    rw [offsetOf_append_right, toNat_toUInt32 (by omega), toNat_toUInt32 (by omega), Nat.add_comm]
  rcases Instr.address_role (hwf.formed i (List.mem_of_getElem? hk)) hop hm with
    ⟨label, -, hrole⟩ | ⟨loc, collection, item, rfl, hrole⟩ | ⟨loc, rfl, hrole⟩
  · refine (h.moved h' hk hrole).imp ?_
    rintro w w' ⟨⟨t, ht, rfl⟩, t', ht', rfl⟩
    rw [← getElem?_append_length_add is] at ht
    rw [hwf'.place_once ht' ht]
    exact haddress t
  · refine (h.moved h' hk hrole).imp ?_
    rintro w w' ⟨hw, hw'⟩
    obtain ⟨j, hj⟩ := hwf.balanced.exists_matched hk
    rw [hw j hj, hw' _ ((matched_append_left_iff is).2 hj)]
    exact haddress (j + 1)
  · refine (h.moved h' hk hrole).imp ?_
    rintro w w' ⟨⟨a, hmatched, rfl⟩, a', hmatched', rfl⟩
    rw [hmatched'.left_unique ((matched_append_left_iff is).2 hmatched)]
    exact haddress (a + 1)

theorem NamesAt.append_left {v : Var} (h : NamesAt js k m v) (is : List Instr) :
    NamesAt (is ++ js) (is.length + k) m v := by
  obtain ⟨i, role, hk, hm, hrole⟩ := h
  refine ⟨i, role, by rwa [getElem?_append_length_add], hm, hrole.imp_right ?_⟩
  rintro ⟨rfl, a, loc, collection, hmatched, ha⟩
  exact ⟨rfl, is.length + a, loc, collection, (matched_append_left_iff is).2 hmatched,
    by rwa [getElem?_append_length_add]⟩

/-- The temporaries of the second program are above the cells that the first one occupies. -/
theorem Image.moved_temp (h : Image n js (LabelAddress js) c)
    (h' : Image n (is ++ js) (LabelAddress (is ++ js)) c') (hjoin : Joinable n is js) {t : Temp}
    (ht : NamesAt js k m (.temp t)) :
    Moved js (span is) c c' k m fun w w' =>
      w'.toNat = w.toNat + (Frame.after is).cells.length := by
  obtain ⟨o, hw, hkind, hindex⟩ := h.exists_index_operand ht
  obtain ⟨o', hw', hkind', hindex'⟩ := h'.exists_index_operand (ht.append_left is)
  rw [offsetOf_append_right, Nat.add_assoc, Nat.add_assoc, ← Nat.add_assoc (offsetOf js k)] at hw'
  refine ⟨_, _, hw, hw', ?_⟩
  rw [List.take_length_add_append, hjoin.index?_temp (usesAt_var_iff.2 ⟨m, ht⟩).mem_temps, hindex,
    Option.map_some, Option.some.injEq] at hindex'
  show o'.encode.toNat = o.encode.toNat + _
  rw [o.encode_toNat, o'.encode_toNat, hkind, hkind', ← hindex']
  exact (Nat.add_assoc _ _ _).symm

/-- The literals of the second program are looked up in the pool of the two. -/
theorem Image.moved_literal (h : Image n js (LabelAddress js) c)
    (h' : Image n (is ++ js) (LabelAddress (is ++ js)) c') (hpool : c.constants = poolOf js)
    (hpool' : c'.constants = poolOf (is ++ js)) {l : Constant} (hl : LiteralAt js k m l) :
    Moved js (span is) c c' k m fun w w' =>
      ∃ e e', c.pooled? w = some e ∧ c'.pooled? w' = some e' ∧ e'.same e = true := by
  obtain ⟨i, hk, hm⟩ := hl
  refine (h.moved h' hk hm).imp ?_
  rintro w w' ⟨hw, hw'⟩
  rw [Role.Means, ← hpool] at hw
  rw [Role.Means, ← hpool'] at hw'
  obtain ⟨e, he, hsame⟩ := hw.exists_pooled?
  obtain ⟨e', he', hsame'⟩ := hw'.exists_pooled?
  exact ⟨e, e', he, he', Constant.same_trans hsame' (Constant.same_symm hsame)⟩

/-- No other word of the second program is changed. -/
theorem Image.wordAt?_append_right (h : Image n js (LabelAddress js) c)
    (h' : Image n (is ++ js) (LabelAddress (is ++ js)) c') (hwf : WellFormed n js) {offset : Nat}
    (hlt : offset < span js)
    (hother : ∀ k m, offset = offsetOf js k + 1 + m → ¬ AddressAt js k m ∧
      (∀ t, ¬ NamesAt js k m (.temp t)) ∧ ∀ l, ¬ LiteralAt js k m l) :
    c'.wordAt? (span is + offset) = c.wordAt? offset := by
  obtain ⟨k, i, op, hk, hop, hcases⟩ := exists_of_lt_span hwf.formed hlt
  rcases hcases with rfl | ⟨m, role, hm, rfl⟩
  · rw [(h k).opcode hk hop, ← offsetOf_append_right]
    rw [← getElem?_append_length_add is] at hk
    exact (h' _).opcode hk hop
  · obtain ⟨haddress, htemp, hliteral⟩ := hother k m rfl
    obtain ⟨w, w', hw, hw', hmeans, hmeans'⟩ := h.moved h' hk hm
    rw [hw, hw']
    refine congrArg some ?_
    -- the place of a slot that is left depends neither on the frame nor on the pool
    cases role with
    | slot s =>
      cases s with
      | var v =>
        cases v with
        | fixed l => exact Slot.Word.unique hmeans' hmeans
        | temp t => exact absurd ⟨i, _, hk, hm, Or.inl rfl⟩ (htemp t)
      | const l => exact absurd ⟨i, hk, hm⟩ (hliteral l)
      | global index | cell index | free index => exact Slot.Word.unique hmeans' hmeans
    | word v => exact hmeans'.trans hmeans.symm
    | loopItem =>
      obtain ⟨a, loc, collection, item, hmatched, ha, hword⟩ := hmeans
      obtain ⟨a', _, _, item', hmatched', ha', hword'⟩ := hmeans'
      obtain rfl := hmatched'.left_unique ((matched_append_left_iff is).2 hmatched)
      rw [getElem?_append_length_add, ha] at ha'
      cases ha'
      cases item with
      | fixed l => exact Slot.Word.unique hword' hword
      | temp t =>
        exact absurd ⟨i, _, hk, hm, Or.inr ⟨rfl, a, loc, collection, hmatched, ha⟩⟩ (htemp t)
    | target label | loopEnd | loopStart =>
      obtain ⟨op, hop, hm⟩ := Instr.exists_address? hm rfl
      exact absurd ⟨i, op, hk, hop, hm⟩ haddress

end Words

/-! ## Joining programs -/

/-- `c` is the code `ca` followed by the code `cb` of the program `js`, with its words changed to
where they stand. Its temporaries are above `cells` more cells. -/
structure Joined (js : List Instr) (cells : Nat) (ca cb c : Code) : Prop where
  size : c.size = ca.size + cb.size
  first : ∀ {offset}, offset < ca.size → c.wordAt? offset = ca.wordAt? offset
  address : ∀ {k m}, AddressAt js k m →
    Moved js ca.size cb c k m fun w w' => w'.toNat = w.toNat + ca.size
  temp : ∀ {k m t}, NamesAt js k m (.temp t) →
    Moved js ca.size cb c k m fun w w' => w'.toNat = w.toNat + cells
  literal : ∀ {k m l}, LiteralAt js k m l →
    Moved js ca.size cb c k m fun w w' =>
      ∃ e e', cb.pooled? w = some e ∧ c.pooled? w' = some e' ∧ e'.same e = true
  other : ∀ {offset}, offset < cb.size →
    (∀ k m, offset = offsetOf js k + 1 + m → ¬ AddressAt js k m ∧
      (∀ t, ¬ NamesAt js k m (.temp t)) ∧ ∀ l, ¬ LiteralAt js k m l) →
    c.wordAt? (ca.size + offset) = cb.wordAt? offset
  locs : c.locs = ca.locs ++ cb.locs
  constants : c.constants.entries = ca.constants.entries ++
    cb.constants.entries.filter fun e => !ca.constants.entries.any (·.same e)
  frameSize : c.frameSize.toNat = max ca.frameSize.toNat (cb.frameSize.toNat + cells)

namespace Program

variable {a b : Program} {n : UInt32} {ca cb c : Code}

/-- The code of joined programs, if they can be lowered. -/
theorem joined_of_lower (ha : (a.lower n).result = .ok ca) (hb : (b.lower n).result = .ok cb)
    (hc : ((a.append b).lower n).result = .ok c) (hjoin : Joinable n a.instrs b.instrs)
    (hsize : ca.size + cb.size < UInt32.size) :
    Joined b.instrs (Frame.after a.instrs).cells.length ca cb c := by
  have hwf := wellFormed_of_lower hc
  have himage := image_of_lower hb
  have himage' := image_of_lower hc
  rw [size_of_lower ha, size_of_lower hb] at hsize
  constructor
  case size =>
    rw [size_of_lower ha, size_of_lower hb, size_of_lower hc]
    exact span_append _ _
  case first =>
    intro offset hlt
    rw [size_of_lower ha] at hlt
    exact (image_of_lower ha).wordAt?_append_left himage' hjoin.first hwf hlt
  case address =>
    intro k m hm
    rw [size_of_lower ha]
    exact himage.moved_address himage' hjoin.second hwf hsize hm
  case temp =>
    intro k m t ht
    rw [size_of_lower ha]
    exact himage.moved_temp himage' hjoin ht
  case literal =>
    intro k m l hl
    rw [size_of_lower ha]
    exact himage.moved_literal himage' (constants_of_lower hb) (constants_of_lower hc) hl
  case other =>
    intro offset hlt hother
    rw [size_of_lower hb] at hlt
    rw [size_of_lower ha]
    exact himage.wordAt?_append_right himage' hjoin.second hlt hother
  case locs =>
    apply Array.toList_inj.1
    rw [Array.toList_append, locs_of_lower ha, locs_of_lower hb, locs_of_lower hc]
    exact List.flatMap_append
  case constants =>
    rw [constants_of_lower ha, constants_of_lower hb, constants_of_lower hc]
    show (poolOf (a.instrs ++ b.instrs)).entries = _
    rw [poolOf_append]
    exact Pool.entries_addAll _ _
  case frameSize =>
    have hstacked := hjoin.stacked b.instrs.length
    rw [List.take_length] at hstacked
    have hwater : (Frame.after (a.append b).instrs).highWater.toNat = _ := hstacked.highWater
    rw [frameSize_of_lower ha, frameSize_of_lower hb, frameSize_of_lower hc, hwater]
    omega

/-- Joining programs fails by overflow only. -/
theorem exists_overflow_of_append (hjoin : Joinable n a.instrs b.instrs) {e : Failure}
    (he : ((a.append b).lower n).result = .error e) :
    ∃ index, e.fault = .operandOverflow index := by
  refine exists_overflow_of_lower hjoin.onlyOverflows_step (fun hq => ?_) he
  exact hq.ledger.onlyOverflows_finish (balanced_iff.1 hjoin.balanced).1
    (fun _ => hq.maxLocal_lt hjoin.neverWraps) fun hk htarget => hjoin.exists_place hk htarget

/-- One program after another, if they share no temporaries and no labels, is lowered to the code of
the first and the code of the second, changed to where it stands, unless an operand becomes too
large. -/
theorem lower_append (ha : (a.lower n).result = .ok ca) (hb : (b.lower n).result = .ok cb)
    (hapart : Apart a.instrs b.instrs) (hsize : ca.size + cb.size < UInt32.size)
    (hallocs : allocations a.instrs + allocations b.instrs < UInt32.size) :
    (∃ e index, ((a.append b).lower n).result = .error e ∧ e.fault = .operandOverflow index) ∨
      ∃ c, ((a.append b).lower n).result = .ok c ∧
        Joined b.instrs (Frame.after a.instrs).cells.length ca cb c := by
  have hjoin : Joinable n a.instrs b.instrs :=
    ⟨wellFormed_of_lower ha, wellFormed_of_lower hb, hapart, hallocs⟩
  cases hresult : ((a.append b).lower n).result with
  | error e =>
    obtain ⟨index, hindex⟩ := exists_overflow_of_append hjoin hresult
    exact Or.inl ⟨e, index, rfl, hindex⟩
  | ok c => exact Or.inr ⟨c, rfl, joined_of_lower ha hb hresult hjoin hsize⟩

end Program

/-- A program that leaves two cells occupied, one of them retired. -/
def openEnded : Program :=
  let loc : Position := ⟨1, 1⟩
  let scratch : Temp := ⟨2, "scratch"⟩
  let kept : Temp := ⟨3, "kept"⟩
  ⟨[.alloc scratch, .alloc kept, .release scratch, .copy loc (.const (.int 1)) (.temp kept)]⟩

/-- Its code, if it has two fixed locals. -/
def openEndedCode : Code where
  words := #[0, 0x10000000, 3]
  locs := Array.replicate 3 ⟨1, 1⟩
  constants := ⟨[.int 1]⟩
  frameSize := 4

/-- The code of this program and a search loop after it. -/
def openSearchCode : Code where
  words :=
    #[0, 0x10000000, 3, 4, 0x20000007, 4, 28, 4, 4, 5, 25, 8, 5, 0x10000001, 1, 2, 1, 28, 9, 5,
      0x10000000, 0, 5, 5, 11, 5, 4, 7, 6, 0]
  locs := Array.replicate 30 ⟨1, 1⟩
  constants := ⟨[.int 1, .str "str"]⟩
  frameSize := 6

theorem lower_openEnded : (openEnded.lower 2).result = .ok openEndedCode := by
  decide

theorem lower_openSearch : ((openEnded.append searchLoop).lower 2).result = .ok openSearchCode := by
  decide

theorem apart_openEnded : Apart openEnded.instrs searchLoop.instrs :=
  ⟨by decide, by decide⟩

theorem Program.lower_append_openEnded :
    (openEnded.lower 2).result = .ok openEndedCode ∧ (searchLoop.lower 2).result = .ok searchCode ∧
      Apart openEnded.instrs searchLoop.instrs ∧
      openEndedCode.size + searchCode.size < UInt32.size ∧
      allocations openEnded.instrs + allocations searchLoop.instrs < UInt32.size ∧
      Joined searchLoop.instrs 2 openEndedCode searchCode openSearchCode := by
  have hsize : openEndedCode.size + searchCode.size < UInt32.size := by decide
  have hallocs : allocations openEnded.instrs + allocations searchLoop.instrs < UInt32.size := by
    decide
  refine ⟨lower_openEnded, lower_searchLoop, apart_openEnded, hsize, hallocs, ?_⟩
  rcases lower_append lower_openEnded lower_searchLoop apart_openEnded hsize hallocs with
    ⟨e, index, he, -⟩ | ⟨c, hc, hjoined⟩
  · rw [lower_openSearch] at he
    cases he
  · rw [lower_openSearch] at hc
    cases hc
    exact hjoined

end Assembler
