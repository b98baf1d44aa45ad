import Assembler.Proofs.Finishing
import Assembler.Proofs.Lifetimes

/-!
# Well-formed programs

A program can be lowered iff it is well-formed (`Program.lower_ok_iff_wellFormed`). What it takes to
be well-formed is said of the program alone, by the numbers of its instructions, and not of the pass
that writes its code.
-/

namespace Assembler

/-- Instruction number `k` has the slot among its operands, or closes a loop whose variable it
is. -/
def UsesAt (is : List Instr) (k : Nat) (s : Slot) : Prop :=
  At is k (fun i => .slot s ∈ i.roles) ∨
    ∃ a loc collection item, Matched is a k ∧ is[a]? = some (.forInit loc collection item) ∧
      s = .var item

/-- The program `is` can be lowered with `n` fixed locals. -/
structure WellFormed (n : UInt32) (is : List Instr) : Prop where
  alloc_once : ∀ {k l t}, At is k (Instr.Allocs t) → At is l (Instr.Allocs t) → k = l
  release_once : ∀ {k l t}, At is k (Instr.Releases t) → At is l (Instr.Releases t) → k = l
  alloc_before_release : ∀ {k t}, At is k (Instr.Releases t) →
    ∃ a, a < k ∧ At is a (Instr.Allocs t)
  alloc_before_use : ∀ {k t}, UsesAt is k (.var (.temp t)) → ∃ a, a < k ∧ At is a (Instr.Allocs t)
  use_before_release : ∀ {k l t}, UsesAt is k (.var (.temp t)) → At is l (Instr.Releases t) → k < l
  fixed_lt : ∀ {k l}, UsesAt is k (.var (.fixed l)) → l.index < n
  index_le : ∀ {k s kind index}, UsesAt is k s →
    s.place? n (Frame.after (is.take k)) (poolOf is) = some (kind, index) → index ≤ maxIndex.toNat
  place_once : ∀ {k l : Nat} {label}, is[k]? = some (.place label) → is[l]? = some (.place label) →
    k = l
  place_after_branch : ∀ {k : Nat} {i label}, is[k]? = some i → i.target? = some label →
    ∃ l : Nat, k < l ∧ is[l]? = some (.place label)
  balanced : Balanced is
  formed : ∀ i ∈ is, i.Formed
  frame_fits : n.toNat + (Frame.after is).highWater.toNat < UInt32.size

/-! ## What can be lowered is well-formed -/

/-- A slot that an instruction uses has a place that an operand word has room for. -/
theorem Image.exists_operand {n : UInt32} {is : List Instr} {known : Label → UInt32 → Prop}
    {c : Code} (h : Image n is known c) {k : Nat} {s : Slot} (hs : UsesAt is k s) :
    ∃ o : Operand,
      s.place? n (Frame.after (is.take k)) (poolOf is) = some (o.kind, o.index.toNat) := by
  rcases hs with ⟨i, hk, hmem⟩ | ⟨a, loc, collection, item, hmatched, ha, rfl⟩
  · obtain ⟨m, hm⟩ := List.getElem?_of_mem hmem
    obtain ⟨w, -, o, ho, -⟩ := (h k).operand hk hm
    exact ⟨o, ho⟩
  · obtain ⟨loc', hk⟩ := hmatched.closing
    have hrole : (Instr.forClose loc').roles[0]? = some .loopItem := rfl
    obtain ⟨w, -, a', loc'', collection', item', hmatched', ha', o, ho, -⟩ := (h k).operand hk hrole
    obtain rfl := hmatched.left_unique hmatched'
    rw [ha] at ha'
    cases ha'
    exact ⟨o, ho⟩

/-- An instruction that uses a slot releases no temporary. -/
theorem UsesAt.not_releases {is : List Instr} {k : Nat} {s : Slot} (hs : UsesAt is k s) (t : Temp) :
    ¬ At is k (Instr.Releases t) := by
  rintro ⟨i, hk, hi⟩
  cases i with
  | release u =>
    rcases hs with ⟨j, hk', hmem⟩ | ⟨a, -, -, -, hmatched, -, -⟩
    · rw [hk] at hk'
      cases hk'
      cases hmem
    · obtain ⟨loc, hk'⟩ := hmatched.closing
      rw [hk] at hk'
      cases hk'
  | _ => cases hi

namespace Pass

variable {n : UInt32} {is : List Instr} {p : Pass} {k : Nat} {t : Temp}

/-- A temporary is not bound yet where it is allocated. -/
theorem Reaches.binding?_eq_none (h : Reaches n is p) (hk : At is k (Instr.Allocs t)) :
    (Frame.after (is.take k)).binding? t = none := by
  obtain ⟨i, hk, hi⟩ := hk
  obtain ⟨q, r, hq, hstep⟩ := h.stepped_at hk
  cases hstep with
  | alloc hnone => rwa [Frame.binding?_congr _ hi.symm, ← hq.ledger.frame]
  | release => cases hi
  | place => cases hi
  | write hop =>
    cases i with
    | alloc => cases hop
    | _ => cases hi

/-- A temporary is live where it is released. -/
theorem Reaches.exists_cell? (h : Reaches n is p) (hk : At is k (Instr.Releases t)) :
    ∃ r, (Frame.after (is.take k)).cell? t = some r := by
  obtain ⟨i, hk, hi⟩ := hk
  obtain ⟨q, r, hq, hstep⟩ := h.stepped_at hk
  cases hstep with
  | alloc => cases hi
  | @release u r hlive =>
    refine ⟨r, Frame.cell?_eq_some_iff.2 ?_⟩
    rwa [Frame.binding?_congr _ hi.symm, ← hq.ledger.frame]
  | place => cases hi
  | write hop =>
    cases i with
    | release => cases hop
    | _ => cases hi

theorem Reaches.le_of_allocs (h : Reaches n is p) {l : Nat} (hk : At is k (Instr.Allocs t))
    (hl : At is l (Instr.Allocs t)) : l ≤ k := by
  have hnone := Frame.binding?_after_eq_none_iff.1 (h.binding?_eq_none hl) k
  rw [at_take, not_and] at hnone
  exact Nat.le_of_not_lt fun hlt => hnone hlt hk

theorem Reaches.le_of_releases (h : Reaches n is p) {l : Nat} (hk : At is k (Instr.Releases t))
    (hl : At is l (Instr.Releases t)) : l ≤ k := by
  obtain ⟨⟨a, hlt, ha⟩, -⟩ := Frame.exists_cell?_iff.1 (h.exists_cell? hk)
  exact (Frame.exists_cell?_iff.1 (h.exists_cell? hl)).2 a k hlt ha hk

theorem Reaches.balanced (h : Reaches n is p) (hloops : p.jumps.loops = []) : Balanced is := by
  refine balanced_iff.2 ⟨?_, fun k loc hk => ?_⟩
  · rw [h.ledger.loops] at hloops
    exact List.map_eq_nil_iff.1 hloops
  · obtain ⟨q, r, hq, hstep⟩ := h.stepped_at hk
    cases hstep with
    | write _ _ hclose =>
      intro hnil
      refine hclose loc rfl ?_
      rw [hq.ledger.loops, hnil]
      rfl

/-- A use of a temporary finds it live. -/
theorem Reaches.exists_cell?_of_usesAt (h : Reaches n is p) (hs : UsesAt is k (.var (.temp t))) :
    ∃ r, (Frame.after (is.take k)).cell? t = some r := by
  obtain ⟨o, ho⟩ := h.image.exists_operand hs
  obtain ⟨index, hindex, -⟩ := Option.map_eq_some_iff.1 ho
  obtain ⟨r, hr, -⟩ := Option.map_eq_some_iff.1 hindex
  exact ⟨r, hr⟩

theorem Reaches.fixed_lt (h : Reaches n is p) {l : Local} (hs : UsesAt is k (.var (.fixed l))) :
    l.index < n := by
  obtain ⟨o, ho⟩ := h.image.exists_operand hs
  obtain ⟨index, hindex, -⟩ := Option.map_eq_some_iff.1 ho
  by_contra hge
  rw [Var.index?, if_neg hge] at hindex
  cases hindex

/-- The program of a pass that comes to its end is well-formed. -/
theorem Reaches.wellFormed (h : Reaches n is p) {code : Code} (hfinish : p.finish.2 = .ok code) :
    WellFormed n is := by
  obtain ⟨patches, frameSize, hres, hcheck, -⟩ := finish_eq_ok_iff.1 hfinish
  obtain ⟨hloops, -, hsum, -⟩ := check_eq_ok_iff.1 hcheck
  exact {
    alloc_once := fun hk hl => Nat.le_antisymm (h.le_of_allocs hl hk) (h.le_of_allocs hk hl)
    release_once := fun hk hl => Nat.le_antisymm (h.le_of_releases hl hk) (h.le_of_releases hk hl)
    alloc_before_release := fun hk => (Frame.exists_cell?_iff.1 (h.exists_cell? hk)).1
    alloc_before_use := fun hs => (Frame.exists_cell?_iff.1 (h.exists_cell?_of_usesAt hs)).1
    use_before_release := by
      intro k l t hs hl
      obtain ⟨a, hlt, ha⟩ := (Frame.exists_cell?_iff.1 (h.exists_cell? hl)).1
      have hle := (Frame.exists_cell?_iff.1 (h.exists_cell?_of_usesAt hs)).2 a l hlt ha hl
      refine Nat.lt_of_le_of_ne hle ?_
      rintro rfl
      exact hs.not_releases t hl
    fixed_lt := h.fixed_lt
    index_le := by
      intro k s kind index hs hplace
      obtain ⟨o, ho⟩ := h.image.exists_operand hs
      rw [ho] at hplace
      cases hplace
      exact UInt32.le_iff_toNat_le.1 o.index_le
    place_once := h.place_unique
    place_after_branch := by
      intro k i label hk htarget
      have hrole := Instr.target?_eq_some_iff.1 htarget
      obtain ⟨m, hm⟩ := List.getElem?_of_mem hrole
      obtain ⟨l, hl, -⟩ := h.ledger.exists_patch hres hk hm
      exact ⟨l, h.lt_of_place hk hrole hl, hl⟩
    balanced := h.balanced hloops
    formed := by
      intro i hi
      obtain ⟨k, hk⟩ := List.getElem?_of_mem hi
      exact h.formed hk
    frame_fits := by
      rw [sum?_eq_some_iff, h.ledger.fixedLocals, h.ledger.frame] at hsum
      rw [← hsum]
      exact frameSize.toNat_lt_size }

end Pass

theorem Program.wellFormed_of_lower {p : Program} {n : UInt32} {code : Code}
    (h : (p.lower n).result = .ok code) : WellFormed n p.instrs := by
  obtain ⟨pass, hreaches, hfinish⟩ := lower_eq_ok_iff.1 h
  exact hreaches.wellFormed hfinish

/-! ## What is well-formed can be lowered -/

/-- The innermost loop is the one that is closed. -/
theorem Pass.Ledger.exists_matched {n : UInt32} {is : List Instr} {p : Pass} {k : Nat}
    (h : Ledger n (is.take k) p) (hbalanced : Balanced is) {loc : Position}
    (hk : is[k]? = some (.forClose loc)) :
    ∃ e : Opened, p.jumps.loops ≠ [] ∧ p.inner = e.loop ∧ Matched is e.index k ∧
      ∃ loc' collection, is[e.index]? = some (.forInit loc' collection e.item) := by
  cases hopen : openLoops (is.take k) with
  | nil => exact absurd hopen ((balanced_iff.1 hbalanced).2 k loc hk)
  | cons e stack =>
    obtain ⟨hmatched, -, hinit⟩ := matched_of_openLoops hk hopen
    have hloops : p.jumps.loops = e.loop :: stack.map Opened.loop := by
      rw [h.loops, hopen]
      rfl
    refine ⟨e, by rw [hloops]; exact List.cons_ne_nil _ _, ?_, hmatched, hinit⟩
    rw [inner, hloops]
    rfl

namespace WellFormed

variable {n : UInt32} {is : List Instr} {i : Instr} {p : Pass} {k : Nat}

/-- A role has one word: labels are placed once, and loops are closed. -/
theorem means_unique (h : WellFormed n is) {m : Nat} {role : Role} (hk : is[k]? = some i)
    (hm : i.roles[m]? = some role) {n' w w' : UInt32}
    (hw : role.Means n' is (LabelAddress is) k w) (hw' : role.Means n' is (LabelAddress is) k w') :
    w = w' := by
  refine hw.unique hw' ?_ ?_
  · rintro label _ _ ⟨t, ht, rfl⟩ ⟨t', ht', rfl⟩
    rw [h.place_once ht ht']
  · rintro rfl
    obtain ⟨loc, collection, item, rfl⟩ := eq_forInit_of_mem_roles (List.mem_of_getElem? hm)
    exact h.balanced.exists_matched hk

theorem exists_place (h : WellFormed n is) {s : Slot} (hs : UsesAt is k s) :
    ∃ place, s.place? n (Frame.after (is.take k)) (poolOf is) = some place ∧
      place.2 ≤ maxIndex.toNat := by
  have hplace : ∃ kind index,
      s.place? n (Frame.after (is.take k)) (poolOf is) = some (kind, index) := by
    cases s with
    | var v =>
      cases v with
      | fixed l => exact ⟨_, _, by rw [Slot.place?, Var.index?, if_pos (h.fixed_lt hs)]; rfl⟩
      | temp t =>
        have hlive : ∀ a r, a < r → At is a (Instr.Allocs t) → At is r (Instr.Releases t) → k ≤ r :=
          fun a r _ _ hr => Nat.le_of_lt (h.use_before_release hs hr)
        obtain ⟨r, hr⟩ := Frame.exists_cell?_iff.2 ⟨h.alloc_before_use hs, hlive⟩
        exact ⟨_, _, by rw [Slot.place?, Var.index?, hr]; rfl⟩
    | const c =>
      rcases hs with ⟨i, hk, hmem⟩ | ⟨_, _, _, _, -, -, heq⟩
      · obtain ⟨index, hindex⟩ := exists_indexOf?_poolOf (List.mem_of_getElem? hk) hmem
        exact ⟨_, _, by rw [Slot.place?, hindex]; rfl⟩
      · cases heq
    | _ => exact ⟨_, _, rfl⟩
  obtain ⟨kind, index, hplace⟩ := hplace
  exact ⟨(kind, index), hplace, h.index_le hs hplace⟩

theorem address?_eq_none (h : WellFormed n is) (hp : Pass.Ledger n (is.take k) p) {label : Label}
    {l : Nat} (hl : is[l]? = some (.place label)) (hle : k ≤ l) :
    p.jumps.address? label = none := by
  refine hp.address?_eq_none_iff.2 fun m hm => ?_
  rw [List.getElem?_take] at hm
  split at hm
  · have := h.place_once hm hl
    omega
  · cases hm

theorem writable (h : WellFormed n is) (hp : Pass.Ledger n (is.take k) p) (hk : is[k]? = some i)
    {role : Role} (hrole : role ∈ i.roles) : (role.field i.loc p.inner).Writable p (poolOf is) := by
  have hslot {s : Slot} (hs : UsesAt is k s) : (Field.slot s).Writable p (poolOf is) := by
    rw [Field.Writable, hp.fixedLocals, hp.frame]
    exact h.exists_place hs
  cases role with
  | slot s => exact hslot (Or.inl ⟨i, hk, hrole⟩)
  | word v => trivial
  | target label =>
    obtain ⟨l, hlt, hl⟩ := h.place_after_branch hk (Instr.target?_eq_some_iff.2 hrole)
    exact h.address?_eq_none hp hl (Nat.le_of_lt hlt)
  | loopEnd => trivial
  | loopItem =>
    obtain ⟨loc, rfl⟩ := eq_forClose_of_mem_roles (Or.inl hrole)
    obtain ⟨e, -, he, hmatched, loc', collection, hinit⟩ := hp.exists_matched h.balanced hk
    rw [he]
    exact hslot (Or.inr ⟨e.index, loc', collection, e.item, hmatched, hinit, rfl⟩)
  | loopStart => trivial

theorem exists_stepped (h : WellFormed n is) (hp : Pass.Reaches n (is.take k) p)
    (hk : is[k]? = some i) : ∃ q, Pass.Stepped k p i q := by
  have hledger := hp.ledger
  cases hop : i.opcode? with
  | none =>
    cases i with
    | alloc t =>
      refine ⟨_, .alloc ?_⟩
      rw [hledger.frame, Frame.binding?_after_eq_none_iff]
      intro a ha
      rw [at_take] at ha
      exact absurd (h.alloc_once ha.2 ⟨_, hk, rfl⟩) (Nat.ne_of_lt ha.1)
    | release t =>
      have hrelease : At is k (Instr.Releases t) := ⟨_, hk, rfl⟩
      have hlive : ∀ a r, a < r → At is a (Instr.Allocs t) → At is r (Instr.Releases t) → k ≤ r :=
        fun a r _ _ hr => Nat.le_of_eq (h.release_once hrelease hr)
      obtain ⟨r, hr⟩ := Frame.exists_cell?_iff.2 ⟨h.alloc_before_release hrelease, hlive⟩
      refine ⟨_, .release (r := r) ?_⟩
      rwa [hledger.frame, ← Frame.cell?_eq_some_iff]
    | place label => exact ⟨_, .place (h.address?_eq_none hledger hk (Nat.le_refl _))⟩
    | _ => cases hop
  | some op =>
    have hclose (loc : Position) (hi : i = .forClose loc) : p.jumps.loops ≠ [] := by
      obtain ⟨e, hne, -⟩ := hledger.exists_matched h.balanced (hi ▸ hk)
      exact hne
    have hpool : ((poolOf (is.take k)).addAll i.constants).entries <+: (poolOf is).entries := by
      have htake : is.take k ++ [i] = is.take (k + 1) := by rw [List.take_add_one, hk]; rfl
      have := poolOf_isPrefix (is.take (k + 1)) (is.drop (k + 1))
      rwa [List.take_append_drop, ← htake, poolOf_append_singleton] at this
    have hwritable : ∀ d ∈ i.roles.map (Role.field i.loc p.inner), d.Writable p (poolOf is) := by
      intro d hd
      obtain ⟨role, hrole, rfl⟩ := List.mem_map.1 hd
      exact h.writable hledger hk hrole
    rw [← hledger.constants, ← i.filterMap_const?_field i.loc p.inner] at hpool
    obtain ⟨q, hq⟩ : ∃ q, (i.roles.map (Role.field i.loc p.inner)).foldlM (Pass.writeField k)
        ((p.leave i).start i.loc op) = .ok q := by
      rw [Pass.leave_eq]
      exact Pass.exists_foldlM_eq_ok k hledger.fits hpool hwritable
    exact ⟨_, .write hop (h.formed i (List.mem_of_getElem? hk)) hclose hq⟩

/-- The pass over a well-formed program comes to the end of it. -/
theorem exists_reaches (h : WellFormed n is) (hk : k ≤ is.length) :
    ∃ p, Pass.Reaches n (is.take k) p := by
  induction k with
  | zero => exact ⟨_, .nil⟩
  | succ k ih =>
    obtain ⟨p, hp⟩ := ih (Nat.le_of_lt hk)
    have hi : is[k]? = some is[k] := List.getElem?_eq_getElem hk
    obtain ⟨q, hq⟩ := h.exists_stepped hp hi
    obtain ⟨event, hstep⟩ := Pass.exists_step_of_stepped hp.ledger.fits hq
    have hlength : (is.take k).length = k := List.length_take_of_le (Nat.le_of_lt hk)
    have htake : is.take (k + 1) = is.take k ++ [is[k]] := by rw [List.take_add_one, hi]; rfl
    rw [htake]
    exact ⟨q, hp.snoc (by rwa [hlength])⟩

end WellFormed

namespace Pass

variable {n : UInt32} {is : List Instr} {p : Pass}

/-- The index of a variable is below the frame size. -/
theorem index?_lt {f : Frame} (h : f.Coherent) {v : Var} {index : Nat}
    (hv : v.index? n f = some index) : index < n.toNat + f.highWater.toNat := by
  cases v with
  | fixed l =>
    simp only [Var.index?] at hv
    split at hv
    next hlt =>
      cases hv
      exact Nat.lt_add_right _ (UInt32.lt_iff_toNat_lt.1 hlt)
    · cases hv
  | temp t =>
    obtain ⟨r, hr, rfl⟩ := Option.map_eq_some_iff.1 hv
    have hlt := h.lt_length (Frame.cell?_eq_some_iff.1 hr)
    exact Nat.add_lt_add_left (Nat.lt_of_lt_of_le hlt h.length_le) _

/-- The highest frame index is below the frame size. -/
theorem Reaches.maxLocal_lt (h : Reaches n is p) (hwraps : Frame.NeverWraps is)
    {index : UInt32} (hindex : p.maxLocal = some index) :
    index.toNat < n.toNat + (Frame.after is).highWater.toNat := by
  induction h generalizing index with
  | nil => cases hindex
  | @snoc is i p q event h hstep ih =>
    have hinit := hwraps.of_isPrefix (List.prefix_append is [i])
    have hmono := (Frame.after is).highWater_le_follow i
    have hstepped := (stepped_iff h.ledger.fits).1 ⟨event, hstep⟩
    rw [Frame.after_append_singleton]
    cases hstepped with
    | alloc =>
      have := ih hinit hindex
      omega
    | release =>
      have := ih hinit hindex
      omega
    | place => exact ih hinit hindex
    | @write i op q hop hi hclose hwrite =>
      have hwrote := h.ledger.wrote hwrite
      rw [leave_eq] at hwrote
      rw [settle_eq] at hindex
      rw [Frame.follow_of_opcode? hop]
      refine hwrote.maxLocal _ (fun index => ih hinit) ?_ index hindex
      intro v j _ hj
      have hj : v.index? p.fixedLocals p.frame = some j := hj
      rw [h.ledger.fixedLocals, h.ledger.frame] at hj
      exact index?_lt (Frame.coherent_after hinit) hj

/-- Every frame index written so far is below `b`. -/
def LocalsBelow (p : Pass) (b : Nat) : Prop :=
  ∀ index, p.maxLocal = some index → index.toNat < b

/-- Where all loops are closed and all indices are in the frame, the last check fails only if the
frame is too large for a word. -/
theorem Ledger.check_eq (h : Ledger n is p) (hloops : openLoops is = [])
    (hlocals : p.LocalsBelow (n.toNat + (Frame.after is).highWater.toNat)) :
    p.check =
      (sum? n (Frame.after is).highWater).elim (.error (.operandOverflow 0xffffffff)) .ok := by
  have hclosed : p.jumps.loops = [] := by
    rw [h.loops, hloops]
    rfl
  unfold check
  rw [if_neg (by simp [hclosed]), if_neg (by simp [h.accounted, h.size]), h.fixedLocals, h.frame]
  cases hsum : sum? n (Frame.after is).highWater with
  | none => rfl
  | some size =>
    cases hmax : p.maxLocal with
    | none => rfl
    | some index =>
      refine if_neg (UInt32.not_le.2 ?_)
      rw [UInt32.lt_iff_toNat_lt, sum?_eq_some_iff.1 hsum]
      exact hlocals index hmax

theorem Reaches.check_eq (h : Reaches n is p) (hloops : openLoops is = [])
    (hwraps : Frame.NeverWraps is) :
    p.check =
      (sum? n (Frame.after is).highWater).elim (.error (.operandOverflow 0xffffffff)) .ok :=
  h.ledger.check_eq hloops fun _ => h.maxLocal_lt hwraps

/-- Every branch finds its label, and the code passes the last check. -/
theorem Ledger.exists_finish_eq_ok (h : Ledger n is p) (hwf : WellFormed n is)
    (hlocals : p.LocalsBelow (n.toNat + (Frame.after is).highWater.toNat)) :
    ∃ code, p.finish.2 = .ok code := by
  obtain ⟨patches, hres⟩ := h.exists_resolve fun hk htarget => by
    obtain ⟨l, -, hl⟩ := hwf.place_after_branch hk htarget
    exact ⟨l, hl⟩
  have hcheck := h.check_eq (balanced_iff.1 hwf.balanced).1 hlocals
  rw [sum?, if_pos hwf.frame_fits] at hcheck
  exact ⟨_, finish_eq_ok_iff.2 ⟨patches, _, hres, hcheck, rfl⟩⟩

theorem Reaches.exists_finish_eq_ok (h : Reaches n is p) (hwf : WellFormed n is)
    (hwraps : Frame.NeverWraps is) : ∃ code, p.finish.2 = .ok code :=
  h.ledger.exists_finish_eq_ok hwf fun _ => h.maxLocal_lt hwraps

end Pass

/-- Lowering accepts exactly the well-formed programs. -/
theorem Program.lower_ok_iff_wellFormed (p : Program) (n : UInt32)
    (hallocs : allocations p.instrs < UInt32.size) :
    (∃ code, (p.lower n).result = .ok code) ↔ WellFormed n p.instrs := by
  constructor
  · rintro ⟨code, h⟩
    obtain ⟨pass, hreaches, hfinish⟩ := lower_eq_ok_iff.1 h
    exact hreaches.wellFormed hfinish
  · intro h
    obtain ⟨pass, hreaches⟩ := h.exists_reaches (Nat.le_refl _)
    rw [List.take_length] at hreaches
    obtain ⟨code, hfinish⟩ :=
      hreaches.exists_finish_eq_ok h (Frame.neverWraps_of_allocations hallocs)
    exact ⟨code, lower_eq_ok_iff.2 ⟨pass, hreaches, hfinish⟩⟩

theorem Program.wellFormed_searchLoop :
    allocations searchLoop.instrs < UInt32.size ∧ WellFormed 2 searchLoop.instrs ∧
      ¬ WellFormed 1 searchLoop.instrs := by
  have hallocs : allocations searchLoop.instrs < UInt32.size := by decide
  refine ⟨hallocs, (lower_ok_iff_wellFormed _ _ hallocs).1 ⟨_, lower_searchLoop⟩, fun h => ?_⟩
  obtain ⟨code, hcode⟩ := (lower_ok_iff_wellFormed _ _ hallocs).2 h
  have hfault : (searchLoop.lower 1).result.isOk = false := by decide
  rw [hcode] at hfault
  cases hfault

end Assembler
