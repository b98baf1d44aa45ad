import Mathlib.Data.List.Chain
import Assembler.Proofs.Addresses
import Assembler.Proofs.Sharing

/-!
# Control flow in lowered code

Control passes from an instruction to the one that follows, or to its address (`Code.successors`).
In lowered code that is to a later instruction, or from the close of a loop to the first instruction
of its body (`Program.Goes.lt_or_loop`).

Lifetimes of temporaries are a matter of the order in which instructions are written, and not of the
order in which they are run. So a temporary that is read at the start of a loop can be overwritten
by one that was given its frame index later in the body (`Program.clobbers_staleLoop`). This takes
the way back over the place where the index changes hands (`Program.handover_of_clobbers`).
-/

namespace Assembler

/-! ## Successors -/

/-- Control can pass to the instruction that follows. -/
def Opcode.fallsThrough : Opcode → Bool
  | branch | ret | retNone => false
  | _ => true

/-- The offsets that control can pass to. -/
def Decoded.successors (d : Decoded) : List Nat :=
  (if d.opcode.fallsThrough then [d.offset + d.opcode.width] else []) ++
    d.address?.toList.map UInt32.toNat

/-- The offsets that control can pass to from the instruction at an offset. -/
def Code.successors (c : Code) (offset : Nat) : List Nat :=
  (c.decodeAt? offset).elim [] Decoded.successors

/-- Instructions that have code stand at growing offsets. -/
theorem offsetOf_lt_offsetOf {is : List Instr} {k l : Nat} (hk : At is k (·.opcode?.isSome))
    (hkl : k < l) : offsetOf is k < offsetOf is l := by
  obtain ⟨i, hi, hop⟩ := hk
  obtain ⟨op, hop⟩ := Option.isSome_iff_exists.1 hop
  have hle := offsetOf_add_width_le hi hkl
  have hwidth : i.width = 1 + op.operandCount := Instr.width_of_opcode? hop
  omega

theorem lt_of_offsetOf_lt {is : List Instr} {k l : Nat} (h : offsetOf is k < offsetOf is l) :
    k < l := by
  by_contra hlk
  have := offsetOf_mono is (Nat.le_of_not_lt hlk)
  omega

namespace Program

variable {p : Program} {n : UInt32} {code : Code} {k l : Nat}

/-- Control can pass from instruction number `k` to instruction number `l`. -/
structure Goes (p : Program) (code : Code) (k l : Nat) : Prop where
  source : At p.instrs k (·.opcode?.isSome)
  target : At p.instrs l (·.opcode?.isSome)
  flow : offsetOf p.instrs l ∈ code.successors (offsetOf p.instrs k)

/-- Control passes to the next instruction, past a later one, or to the start of a loop. Addresses
are words, so those past the last number of a word have wrapped around. -/
theorem mem_successors_of_lower (h : (p.lower n).result = .ok code) {i : Instr}
    (hk : p.instrs[k]? = some i) (hop : i.opcode?.isSome) {off : Nat}
    (hoff : off ∈ code.successors (offsetOf p.instrs k)) :
    off = offsetOf p.instrs (k + 1) ∨
      (∃ t, k < t ∧ off = (offsetOf p.instrs t).toUInt32.toNat) ∨
      ∃ a, Matched p.instrs a k ∧ off = (offsetOf p.instrs (a + 1)).toUInt32.toNat := by
  have hi := formed_of_lower h hk
  obtain ⟨op, hop⟩ := Option.isSome_iff_exists.1 hop
  obtain ⟨ws, hdecode, hmeans⟩ :=
    Code.exists_decodeAt? (image_of_lower h k) (size_of_lower h) hk hi hop
  rw [Code.successors, hdecode] at hoff
  rcases List.mem_append.1 hoff with hnext | haddress
  · refine Or.inl ?_
    split at hnext
    · rw [offsetOf_succ hk, Instr.width_of_opcode? hop]
      exact List.mem_singleton.1 hnext
    · cases hnext
  · refine Or.inr ?_
    obtain ⟨w, hw, rfl⟩ := List.mem_map.1 haddress
    obtain ⟨m, hm, hword⟩ := Option.bind_eq_some_iff.1 (Option.mem_toList.1 hw)
    -- the address is the word for its role
    have hrole {role : Role} (hr : i.roles[m]? = some role) :
        role.Means n p.instrs (LabelAddress p.instrs) k w := by
      obtain ⟨w', hw', hmeans'⟩ := exists_getElem?_of_forall₂ hmeans hr
      rw [hword] at hw'
      cases hw'
      exact hmeans'
    rcases Instr.address_role hi hop hm with
      ⟨label, htarget, hr⟩ | ⟨loc, collection, item, rfl, hr⟩ | ⟨loc, rfl, hr⟩
    · obtain ⟨t, ht, rfl⟩ := hrole hr
      exact Or.inl ⟨t, lt_of_place_of_lower h hk htarget ht, rfl⟩
    · obtain ⟨j, hj⟩ := (wellFormed_of_lower h).balanced.exists_matched hk
      obtain rfl := hrole hr j hj
      exact Or.inl ⟨j + 1, Nat.lt_succ_of_lt hj.lt, rfl⟩
    · obtain ⟨a, ha, rfl⟩ := hrole hr
      exact Or.inr ⟨a, ha, rfl⟩

/-- Control passes to a later instruction, or from the close of a loop to the first instruction of
its body. -/
theorem Goes.lt_or_loop (h : (p.lower n).result = .ok code) (hsize : code.size < UInt32.size)
    (hgoes : p.Goes code k l) :
    k < l ∨ ∃ a, Matched p.instrs a k ∧ a < l ∧
      ∀ c, a < c → At p.instrs c (·.opcode?.isSome) → l ≤ c := by
  obtain ⟨i, hk, hop⟩ := hgoes.source
  have hback (t : Nat) : (offsetOf p.instrs t).toUInt32.toNat = offsetOf p.instrs t :=
    toNat_toUInt32 (offsetOf_lt_size_of_lower h hsize t)
  rcases mem_successors_of_lower h hk hop hgoes.flow with hnext | ⟨t, hkt, ht⟩ | ⟨a, hmatched, ha⟩
  · have hlt := offsetOf_lt_offsetOf hgoes.source (Nat.lt_succ_self k)
    rw [← hnext] at hlt
    exact Or.inl (lt_of_offsetOf_lt hlt)
  · have hlt := offsetOf_lt_offsetOf hgoes.source hkt
    rw [← hback t, ← ht] at hlt
    exact Or.inl (lt_of_offsetOf_lt hlt)
  · rw [hback] at ha
    obtain ⟨loc, collection, item, hopening⟩ := hmatched.opening
    have hcode : At p.instrs a (·.opcode?.isSome) := ⟨_, hopening, rfl⟩
    have hlt := offsetOf_lt_offsetOf hcode (Nat.lt_succ_self a)
    rw [← ha] at hlt
    refine Or.inr ⟨a, hmatched, lt_of_offsetOf_lt hlt, fun c hac hc => ?_⟩
    by_contra hcl
    have hcl := offsetOf_lt_offsetOf hc (Nat.lt_of_not_le hcl)
    have hmono : offsetOf p.instrs (a + 1) ≤ offsetOf p.instrs c := offsetOf_mono _ hac
    omega

end Program

/-! ## Ways back -/

/-- A walk that starts at or above a number and comes below it has a first step that does. -/
theorem exists_first_lt {r s t : Nat} {ks : List Nat} (hs : r ≤ s) (ht : t ∈ ks) (htr : t < r) :
    ∃ pre g g' post, s :: ks = pre ++ g :: g' :: post ∧ (∀ x ∈ pre, r ≤ x) ∧ r ≤ g ∧ g' < r := by
  induction ks generalizing s with
  | nil => cases ht
  | cons k ks ih =>
    by_cases hk : k < r
    · exact ⟨[], s, k, ks, rfl, nofun, hs, hk⟩
    · have ht : t ∈ ks := by
        rcases List.mem_cons.1 ht with rfl | ht
        · exact absurd htr hk
        · exact ht
      obtain ⟨pre, g, g', post, heq, hpre, hg, hg'⟩ := ih (Nat.le_of_not_lt hk) ht
      refine ⟨s :: pre, g, g', post, by rw [heq]; rfl, ?_, hg, hg'⟩
      intro x hx
      rcases List.mem_cons.1 hx with rfl | hx
      · exact hs
      · exact hpre x hx

namespace Program

variable {p : Program} {n : UInt32} {code : Code}

/-- A way that comes below a number does so first by the way back of a loop. -/
theorem exists_first_way_back (h : (p.lower n).result = .ok code) (hsize : code.size < UInt32.size)
    {r s t : Nat} {ks : List Nat} (hpath : List.IsChain (p.Goes code) (s :: ks)) (hs : r ≤ s)
    (ht : t ∈ ks) (htr : t < r) :
    ∃ pre g g' post i, s :: ks = pre ++ g :: g' :: post ∧ (∀ x ∈ pre, r ≤ x) ∧ r ≤ g ∧ g' < r ∧
      Matched p.instrs i g ∧ i < g' ∧ ∀ c, i < c → At p.instrs c (·.opcode?.isSome) → g' ≤ c := by
  obtain ⟨pre, g, g', post, heq, hpre, hg, hg'⟩ := exists_first_lt hs ht htr
  have hgoes : p.Goes code g g' := by
    rw [heq] at hpath
    exact (List.isChain_append_cons_cons.1 hpath).2.1
  obtain hlt | ⟨i, hmatched, hig', hfirst⟩ := hgoes.lt_or_loop h hsize
  · omega
  · exact ⟨pre, g, g', post, i, heq, hpre, hg, hg', hmatched, hig', hfirst⟩

/-- A way from behind `a` to before `r`, where `r < a` and `a` has no code, takes the way back of a
loop that has both in its body. -/
theorem exists_way_back (h : (p.lower n).result = .ok code) (hsize : code.size < UInt32.size)
    {r a s t : Nat} {ks : List Nat} (hpath : List.IsChain (p.Goes code) (s :: ks)) (hra : r < a)
    (ha : At p.instrs a (·.opcode? = none)) (has : a < s) (ht : t ∈ ks) (htr : t < r) :
    ∃ g g' i, [g, g'] <:+: s :: ks ∧ g' < r ∧ Matched p.instrs i g ∧ i < g' ∧ a < g := by
  obtain ⟨pre, g, g', post, i, heq, hpre, hg, hg', hmatched, hig', -⟩ :=
    exists_first_way_back h hsize hpath (by omega) ht htr
  refine ⟨g, g', i, ⟨pre, post, by simp [heq]⟩, hg', hmatched, hig', ?_⟩
  by_contra hga
  have hgs : g < s := by
    have hne : g ≠ a := by
      rintro rfl
      obtain ⟨loc, hg⟩ := hmatched.closing
      obtain ⟨i, hnone, hclose⟩ := ha.exists_and ⟨_, hg, rfl⟩
      rw [← hclose] at hnone
      cases hnone
    omega
  -- then the way from `s` to `g` comes back too, to a place between `r` and `g`
  obtain ⟨pre', rfl⟩ : ∃ pre', pre = s :: pre' := by
    cases pre with
    | nil => exact absurd (List.cons.inj heq).1 (Nat.ne_of_gt hgs)
    | cons x pre' => exact ⟨pre', by rw [(List.cons.inj heq).1]⟩
  have hway : List.IsChain (p.Goes code) (s :: (pre' ++ [g])) := by
    refine hpath.prefix ⟨g' :: post, ?_⟩
    rw [heq]
    simp
  obtain ⟨pre₂, u, u', post₂, b, heq₂, -, hu, hu', hmatched₂, hbu', hfirst⟩ :=
    exists_first_way_back h hsize hway (Nat.succ_le_of_lt hgs)
      (List.mem_append_right _ (List.mem_singleton.2 rfl)) (Nat.lt_succ_self g)
  have hru' : r ≤ u' := by
    have hmem : u' ∈ (s :: pre') ++ [g] := by
      rw [List.cons_append, heq₂]
      simp
    rcases List.mem_append.1 hmem with hx | hx
    · exact hpre u' hx
    · exact List.mem_singleton.1 hx ▸ hg
  -- but two loops do not overlap
  rcases Nat.lt_trichotomy i b with hib | rfl | hbi
  · have := hmatched.lt_of_opens_in hmatched₂ hib (by omega)
    omega
  · have := hmatched.right_unique hmatched₂
    omega
  · obtain ⟨loc, collection, item, hopening⟩ := hmatched.opening
    have := hfirst i hbi ⟨_, hopening, rfl⟩
    omega

end Program

/-! ## Temporaries along a way -/

/-- The slot that an argument reads. -/
def Arg.input? : Arg → Option Slot
  | .input s => some s
  | _ => none

/-- The variable that an argument writes. -/
def Arg.output? : Arg → Option Var
  | .output v => some v
  | _ => none

namespace Instr

/-- The slots that an instruction reads. -/
def reads : Instr → List Slot
  | copy _ src _ => [src]
  | branchIf _ cond _ _ => [.var cond]
  | typeIs _ expr _ _ => [expr]
  | ret _ value => [value]
  | forInit _ collection _ => [collection]
  | op _ _ args => args.filterMap Arg.input?
  | alloc _ | release _ | branch .. | place _ | forClose _ => []

/-- The variables that an instruction writes, apart from the variable of a loop that it closes. -/
def writes : Instr → List Var
  | copy _ _ dest => [dest]
  | typeIs _ _ _ result => [result]
  | forInit _ _ item => [item]
  | op _ _ args => args.filterMap Arg.output?
  | alloc _ | release _ | branch .. | branchIf .. | place _ | ret .. | forClose _ => []

theorem mem_roles_of_mem_reads {i : Instr} {s : Slot} (h : s ∈ i.reads) : .slot s ∈ i.roles := by
  cases i with
  | op loc opcode args =>
    obtain ⟨a, ha, hs⟩ := List.mem_filterMap.1 h
    refine List.mem_map.2 ⟨a, ha, ?_⟩
    cases a <;> cases hs
    rfl
  | _ => simp_all [reads, roles]

theorem mem_roles_of_mem_writes {i : Instr} {v : Var} (h : v ∈ i.writes) :
    .slot (.var v) ∈ i.roles := by
  cases i with
  | op loc opcode args =>
    obtain ⟨a, ha, hs⟩ := List.mem_filterMap.1 h
    refine List.mem_map.2 ⟨a, ha, ?_⟩
    cases a <;> cases hs
    rfl
  | _ => simp_all [writes, roles]

end Instr

/-- Instruction number `k` reads the temporary `t`. -/
def ReadsAt (is : List Instr) (k : Nat) (t : Temp) : Prop :=
  ∃ u, u.id = t.id ∧ At is k (.var (.temp u) ∈ ·.reads)

/-- Instruction number `k` writes the temporary `t`, maybe as the variable of a loop that it
closes. -/
def WritesAt (is : List Instr) (k : Nat) (t : Temp) : Prop :=
  ∃ u, u.id = t.id ∧
    (At is k (.temp u ∈ ·.writes) ∨
      ∃ a loc collection, Matched is a k ∧ is[a]? = some (.forInit loc collection (.temp u)))

theorem ReadsAt.usesAt {is : List Instr} {k : Nat} {t : Temp} (h : ReadsAt is k t) :
    ∃ u, u.id = t.id ∧ UsesAt is k (.var (.temp u)) := by
  obtain ⟨u, hid, i, hi, hmem⟩ := h
  exact ⟨u, hid, Or.inl ⟨i, hi, Instr.mem_roles_of_mem_reads hmem⟩⟩

theorem WritesAt.usesAt {is : List Instr} {k : Nat} {t : Temp} (h : WritesAt is k t) :
    ∃ u, u.id = t.id ∧ UsesAt is k (.var (.temp u)) := by
  obtain ⟨u, hid, ⟨i, hi, hmem⟩ | ⟨a, loc, collection, hmatched, ha⟩⟩ := h
  · exact ⟨u, hid, Or.inl ⟨i, hi, Instr.mem_roles_of_mem_writes hmem⟩⟩
  · exact ⟨u, hid, Or.inr ⟨a, loc, collection, _, hmatched, ha, rfl⟩⟩

namespace Program

variable {p : Program} {n : UInt32} {code : Code} {x y : Temp} {k l s : Nat}
  {before after : List Nat}

/-- The frame index by which operand words name a temporary. -/
def GivenIndex (p : Program) (code : Code) (t : Temp) (index : UInt32) : Prop :=
  ∃ u k m, u.id = t.id ∧ p.IndexAt code k m (.temp u) index

/-- On a way from instruction number `k`, which writes the temporary `x`, to instruction number `l`,
which reads it, instruction number `s` writes another temporary that was given the same index. -/
structure Clobbers (p : Program) (code : Code) (x y : Temp) (k : Nat) (before : List Nat) (s : Nat)
    (after : List Nat) (l : Nat) : Prop where
  way : List.IsChain (p.Goes code) (k :: (before ++ s :: (after ++ [l])))
  writes : WritesAt p.instrs k x
  overwrites : WritesAt p.instrs s y
  reads : ReadsAt p.instrs l x
  ne : x.id ≠ y.id
  index : ∃ i, p.GivenIndex code x i ∧ p.GivenIndex code y i

/-- The cell of a temporary that was given an index, wherever the temporary is used. -/
theorem GivenIndex.cell?_eq (h : (p.lower n).result = .ok code) {t : Temp} {index : UInt32}
    (ht : p.GivenIndex code t index) :
    ∃ r, index.toNat = n.toNat + r.toNat ∧
      ∀ k u, u.id = t.id → UsesAt p.instrs k (.var (.temp u)) →
        (Frame.after (p.instrs.take k)).cell? t = some r := by
  obtain ⟨u, k, m, hid, hu⟩ := ht
  obtain ⟨r, hr, hindex⟩ := hu.exists_cell? h
  refine ⟨r, hindex, fun l v hv huse => ?_⟩
  obtain ⟨m', hm'⟩ := usesAt_var_iff.1 huse
  obtain ⟨j, hj⟩ := exists_indexAt_of_lower h hm'
  obtain ⟨r', hr', -⟩ := hj.exists_cell? h
  obtain rfl := Frame.cell?_unique (hid.trans hv.symm) hr hr'
  rwa [← Frame.cell?_congr _ hv]

/-- A way from behind an allocation to before an earlier release steps back over the release. In
code that is not too long for addresses, it steps back from the close of a loop to its body, and has
both in the body. -/
theorem exists_step_back (h : (p.lower n).result = .ok code) {r a s t : Nat} {ks : List Nat}
    (hpath : List.IsChain (p.Goes code) (s :: ks)) (hra : r < a)
    (hr : At p.instrs r (Instr.Releases x)) (ha : At p.instrs a (Instr.Allocs y)) (has : a < s)
    (ht : t ∈ ks) (htr : t < r) :
    ∃ g g', [g, g'] <:+: s :: ks ∧ g' < r ∧ r < g ∧
      (code.size < UInt32.size → ∃ i, Matched p.instrs i g ∧ i < g' ∧ a < g) := by
  by_cases hsize : code.size < UInt32.size
  · obtain ⟨g, g', i, hpair, hg', hmatched, hig', hag⟩ :=
      exists_way_back h hsize hpath hra (ha.imp Instr.Allocs.opcode?_eq_none) has ht htr
    exact ⟨g, g', hpair, hg', Nat.lt_trans hra hag, fun _ => ⟨i, hmatched, hig', hag⟩⟩
  · obtain ⟨pre, g, g', post, heq, -, hg, hg'⟩ := exists_first_lt (by omega : r ≤ s) ht htr
    have hgoes : p.Goes code g g' := by
      rw [heq] at hpath
      exact (List.isChain_append_cons_cons.1 hpath).2.1
    have hne : g ≠ r := by
      rintro rfl
      obtain ⟨i, hreleases, hsome⟩ := hr.exists_and hgoes.source
      rw [hreleases.opcode?_eq_none] at hsome
      cases hsome
    exact ⟨g, g', ⟨pre, post, by simp [heq]⟩, hg', by omega, fun hsize' => absurd hsize' hsize⟩

/-- A temporary is overwritten only on a way that steps back over the place where its index passes
to the other temporary, or from it. In code that is not too long for addresses, this is the step
from the close of a loop to its body, and both the release of the one and the allocation of the
other are in the body. -/
theorem handover_of_clobbers (h : (p.lower n).result = .ok code)
    (hwraps : Frame.NeverWraps p.instrs) (hc : p.Clobbers code x y k before s after l) :
    ∃ r a g g', r < a ∧
      (At p.instrs r (Instr.Releases x) ∧ At p.instrs a (Instr.Allocs y) ∨
        At p.instrs r (Instr.Releases y) ∧ At p.instrs a (Instr.Allocs x)) ∧
      [g, g'] <:+: k :: (before ++ s :: (after ++ [l])) ∧ g' < r ∧ r < g ∧
      (code.size < UInt32.size → ∃ i, Matched p.instrs i g ∧ i < g' ∧ a < g) := by
  obtain ⟨pass, hreaches, -⟩ := lower_eq_ok_iff.1 h
  have hwf := wellFormed_of_lower h
  obtain ⟨index, hx, hy⟩ := hc.index
  obtain ⟨r, hr, hx⟩ := hx.cell?_eq h
  obtain ⟨r', hr', hy⟩ := hy.cell?_eq h
  obtain rfl : r = r' := UInt32.toNat_inj.1 (by omega)
  obtain ⟨u, hu, hwrites⟩ := hc.writes.usesAt
  obtain ⟨v, hv, hoverwrites⟩ := hc.overwrites.usesAt
  obtain ⟨w, hw, hreads⟩ := hc.reads.usesAt
  rcases Nat.le_total k s with hks | hsk
  · -- the index passes from `x` to `y`, and the way comes back from `s` to `l`
    obtain ⟨r, a, -, hra, has, hrel, halloc⟩ :=
      hreaches.exists_handover hwraps hc.ne hks (hx k u hu hwrites) (hy s v hv hoverwrites)
    have hsuffix : s :: (after ++ [l]) <:+ k :: (before ++ s :: (after ++ [l])) :=
      ⟨k :: before, by simp⟩
    obtain ⟨g, g', hpair, hg⟩ := exists_step_back h (hc.way.suffix hsuffix) hra
      hrel halloc has (List.mem_append_right _ (List.mem_singleton.2 rfl))
      (hwf.lt_of_releases hw hreads hrel)
    exact ⟨r, a, g, g', hra, Or.inl ⟨hrel, halloc⟩, hpair.trans hsuffix.isInfix, hg⟩
  · -- the index passes from `y` to `x`, and the way comes back from `k` to `s`
    obtain ⟨r, a, -, hra, hak, hrel, halloc⟩ :=
      hreaches.exists_handover hwraps hc.ne.symm hsk (hy s v hv hoverwrites) (hx k u hu hwrites)
    obtain ⟨g, g', hpair, hg⟩ := exists_step_back h hc.way hra hrel halloc hak
      (List.mem_append_right _ List.mem_cons_self) (hwf.lt_of_releases hv hoverwrites hrel)
    exact ⟨r, a, g, g', hra, Or.inr ⟨hrel, halloc⟩, hpair, hg⟩

/-- No way through the code overwrites a temporary before it is read. -/
def KeepsTemps (p : Program) (code : Code) : Prop :=
  ∀ x y k before s after l, ¬ p.Clobbers code x y k before s after l

/-- In its second round, the loop reads what its first round has written into the cell passed on. -/
theorem clobbers_staleLoop :
    staleLoop.Clobbers staleCode ⟨0, "old"⟩ ⟨1, "new"⟩ 1 [2, 3] 6 [7] 3 where
  way := by
    have goes (k l : Nat) (hk : At staleLoop.instrs k (·.opcode?.isSome))
        (hl : At staleLoop.instrs l (·.opcode?.isSome))
        (hflow : offsetOf staleLoop.instrs l ∈ staleCode.successors (offsetOf staleLoop.instrs k)) :
        staleLoop.Goes staleCode k l := ⟨hk, hl, hflow⟩
    refine .cons_cons (goes 1 2 ⟨_, rfl, rfl⟩ ⟨_, rfl, rfl⟩ (by decide)) ?_
    refine .cons_cons (goes 2 3 ⟨_, rfl, rfl⟩ ⟨_, rfl, rfl⟩ (by decide)) ?_
    refine .cons_cons (goes 3 6 ⟨_, rfl, rfl⟩ ⟨_, rfl, rfl⟩ (by decide)) ?_
    refine .cons_cons (goes 6 7 ⟨_, rfl, rfl⟩ ⟨_, rfl, rfl⟩ (by decide)) ?_
    exact .cons_cons (goes 7 3 ⟨_, rfl, rfl⟩ ⟨_, rfl, rfl⟩ (by decide)) (.singleton _)
  writes := ⟨_, rfl, Or.inl ⟨_, rfl, List.mem_singleton.2 rfl⟩⟩
  overwrites := ⟨_, rfl, Or.inl ⟨_, rfl, List.mem_singleton.2 rfl⟩⟩
  reads := ⟨_, rfl, _, rfl, List.mem_singleton.2 rfl⟩
  ne := by decide
  index := ⟨2, ⟨_, 3, 0, rfl, indexAt_old⟩, ⟨_, 6, 1, rfl, indexAt_new⟩⟩

theorem not_keepsTemps_staleLoop :
    (staleLoop.lower 2).result = .ok staleCode ∧ ¬ staleLoop.KeepsTemps staleCode :=
  ⟨lower_staleLoop, fun h => h _ _ _ _ _ _ _ clobbers_staleLoop⟩

theorem handover_of_clobbers_staleLoop :
    (staleLoop.lower 2).result = .ok staleCode ∧ Frame.NeverWraps staleLoop.instrs ∧
      staleLoop.Clobbers staleCode ⟨0, "old"⟩ ⟨1, "new"⟩ 1 [2, 3] 6 [7] 3 ∧
      ∃ g g' i, [g, g'] <:+: [1, 2, 3, 6, 7, 3] ∧ Matched staleLoop.instrs i g ∧ i < g' ∧
        g' < g := by
  have hwraps : Frame.NeverWraps staleLoop.instrs :=
    Frame.neverWraps_of_allocations (by decide)
  refine ⟨lower_staleLoop, hwraps, clobbers_staleLoop, ?_⟩
  obtain ⟨r, a, g, g', -, -, hpair, hg', hg, hloop⟩ :=
    handover_of_clobbers lower_staleLoop hwraps clobbers_staleLoop
  obtain ⟨i, hmatched, hig', -⟩ := hloop (by decide)
  exact ⟨g, g', i, hpair, hmatched, hig', Nat.lt_trans hg' hg⟩

end Program

end Assembler
