/-
  What operations do to views.

  The counterpart of the transfer functions: `View.apply` for one operation,
  `View.passOps` for a list of them, and `View.Reports` for the accesses that
  are met on the way. A definition can take a name out of its region, so more
  links before do not trivially give more links after; `apply_mono` says that
  they do. The one case to look at is a name that is built from itself in the
  larger view and not in the smaller one: there the smaller view moves the name
  into a region of its own, and that is below leaving it where it is.

  How calls cross is given by a function `kinds` on operations.
-/

import Sendability.Analysis.Transfer
import Sendability.Proofs.View

namespace Sendability

/-- The operation defines a non-sendable value of the name `n`. -/
def Op.Defines (op : Op) (n : Name) : Prop := ∃ d ∈ op.dest?, d.sendable = false ∧ d.name = n

namespace View

-- ============================================================================
-- One operation
-- ============================================================================

/-- The tracked names of the non-sendable ones among some values. -/
def among (A : View) (vs : List Value) : Set Name :=
  {n | A.tracked n ∧ ∃ v ∈ vs, v.sendable = false ∧ v.name = n}

open Classical in
/-- Defines a value in the region of the names of `S`; a name of `S` stays where
    it was. -/
noncomputable def define (A : View) (dest : Option Value) (S : Set Name) : View :=
  match dest with
  | none => A
  | some d =>
    if d.sendable then A
    else (if d.name ∈ S then A else A.redefine d.name).unite (insert d.name S)

/-- Unites the tracked ones of some values and defines `dest` from them. -/
noncomputable def build (A : View) (dest : Option Value) (parts : List Value) : View :=
  (A.unite (A.among parts)).define dest (A.among parts)

/-- What a call at `k` that hands over the names of `S` leaves behind. -/
def handing (k : Int × Int) (S : Set Name) (k' : Int × Int) (o : Option Name) : Prop :=
  k' = k ∧ ∀ w ∈ o, w ∈ S

/-- The view after an operation at the point `k`. -/
noncomputable def apply (A : View) (kind : Crossing) (k : Int × Int) : Op → View
  | .init dest args _ => A.build (some dest) args
  | .load dest base _ _ => A.build (some dest) [base]
  | .copy dest src _ => A.build (some dest) [src]
  | .store base _ value _ => A.build none [base, value]
  | .closure dest captures _ => A.build (some dest) captures
  | .call c =>
    if kind.transfers then
      (A.build c.dest c.operands).annotate (A.among c.operands) (handing k (A.among c.operands))
    else A.build c.dest c.operands
  | .use .. => A

variable {A B : View} {S T : Set Name} {vs : List Value}

theorem among_mono (h : A ≤ B) (vs : List Value) : A.among vs ⊆ B.among vs :=
  fun n hn => ⟨h.tracked n hn.1, hn.2⟩

/-- A definition from more names in a larger view gives a larger one. -/
theorem define_mono (h : A ≤ B) (hB : B.Lawful) (dest : Option Value) (hST : S ⊆ T)
    (hT : ∀ n ∈ T, B.tracked n) : A.define dest S ≤ B.define dest T := by
  cases dest with
  | none => exact h
  | some d =>
    simp only [define]
    split
    · exact h
    · refine unite_mono ?_ (Set.insert_subset_insert hST)
      by_cases hS : d.name ∈ S
      · rw [if_pos hS, if_pos (hST hS)]
        exact h
      · rw [if_neg hS]
        by_cases hdT : d.name ∈ T
        · -- kept in the larger view, moved away in the smaller one
          rw [if_pos hdT]
          exact redefine_le h hB (hT _ hdT)
        · rw [if_neg hdT]
          exact redefine_mono h _

theorem build_mono (h : A ≤ B) (hB : B.Lawful) (dest : Option Value) (parts : List Value) :
    A.build dest parts ≤ B.build dest parts :=
  define_mono (unite_mono h (among_mono h parts)) (hB.unite _) dest (among_mono h parts)
    fun _ hn => hn.1

theorem handing_mono {k k' : Int × Int} {o : Option Name} (hST : S ⊆ T)
    (h : handing k S k' o) : handing k T k' o :=
  ⟨h.1, fun w hw => hST (h.2 w hw)⟩

/-- More before an operation is more after it. -/
theorem apply_mono (h : A ≤ B) (hB : B.Lawful) (kind : Crossing) (k : Int × Int) (op : Op) :
    A.apply kind k op ≤ B.apply kind k op := by
  cases op with
  | init dest args loc => exact build_mono h hB _ _
  | load dest base field loc => exact build_mono h hB _ _
  | copy dest src loc => exact build_mono h hB _ _
  | store base field value loc => exact build_mono h hB _ _
  | closure dest captures loc => exact build_mono h hB _ _
  | call c =>
    have hparts := among_mono h c.operands
    simp only [apply]
    split
    · exact annotate_mono (build_mono h hB _ _) hparts fun _ _ => handing_mono hparts
    · exact build_mono h hB _ _
  | use value kind loc => exact h

theorem Lawful.define (hA : A.Lawful) (dest : Option Value) (S : Set Name) :
    (A.define dest S).Lawful := by
  cases dest with
  | none => exact hA
  | some d =>
    simp only [View.define]
    split
    · exact hA
    · apply Lawful.unite
      split
      · exact hA
      · exact hA.redefine _

theorem Lawful.build (hA : A.Lawful) (dest : Option Value) (parts : List Value) :
    (A.build dest parts).Lawful :=
  (hA.unite _).define _ _

/-- Every operation keeps views lawful. -/
theorem Lawful.apply (hA : A.Lawful) (kind : Crossing) (k : Int × Int) (op : Op) :
    (A.apply kind k op).Lawful := by
  cases op with
  | init dest args loc => exact hA.build _ _
  | load dest base field loc => exact hA.build _ _
  | copy dest src loc => exact hA.build _ _
  | store base field value loc => exact hA.build _ _
  | closure dest captures loc => exact hA.build _ _
  | call c =>
    simp only [View.apply]
    split
    · exact (hA.build _ _).annotate _ _
    · exact hA.build _ _
  | use value kind loc => exact hA

/-- A definition tracks its destination, unless that is sendable, and drops nothing. -/
theorem tracked_build {dest : Option Value} {parts : List Value} {n : Name} :
    (A.build dest parts).tracked n ↔
      A.tracked n ∨ ∃ d ∈ dest, d.sendable = false ∧ d.name = n := by
  cases dest with
  | none => simp [build, define, unite]
  | some d =>
    simp only [build, define]
    split
    · rename_i hd
      simp [unite, hd]
    · rename_i hd
      simp only [Bool.not_eq_true] at hd
      split
      · -- a name that is built from itself is tracked already
        rename_i hmem
        refine ⟨.inl, ?_⟩
        rintro (hn | ⟨e, he, -, rfl⟩)
        · exact hn
        · obtain rfl : d = e := Option.some.inj he
          exact hmem.1
      · simp [unite, redefine, hd, eq_comm (a := n)]

/-- An operation tracks what it defines, and nothing is lost. -/
theorem tracked_apply {kind : Crossing} {k : Int × Int} {op : Op} {n : Name} :
    (A.apply kind k op).tracked n ↔ A.tracked n ∨ op.Defines n := by
  cases op with
  | init dest args loc => exact tracked_build
  | load dest base field loc => exact tracked_build
  | copy dest src loc => exact tracked_build
  | store base field value loc => exact tracked_build
  | closure dest captures loc => exact tracked_build
  | call c =>
    simp only [apply]
    split
    · exact tracked_build
    · exact tracked_build
  | use value kind loc => simp [apply, Op.Defines, Op.dest?]

-- ============================================================================
-- Lists of operations
-- ============================================================================

/-- The view after some operations of the block with number `index`, which start
    at number `i`. -/
noncomputable def passOps (kinds : Op → Crossing) (index : Int) : Int → View → List Op → View
  | _, A, [] => A
  | i, A, op :: rest => passOps kinds index (i + 1) (A.apply (kinds op) (index, i) op) rest

/-- The view after a block. -/
noncomputable def passBlock (kinds : Op → Crossing) (index : Int) (b : Block) (A : View) : View :=
  passOps kinds index 0 A b.ops

/-- One of the operands is a value `v`, used in the way `kind`, of a region that
    was transferred at the point `k`. -/
def Exposed (A : View) (operands : List (Value × AccessKind)) (v : Name) (kind : AccessKind)
    (k : Int × Int) : Prop :=
  (∃ e ∈ operands, e.1.sendable = false ∧ e.1.name = v ∧ e.2 = kind) ∧ A.noted v k none

/-- The accesses met by some operations: at the point `q`, of `v`, in the way
    `kind`, after a transfer at `k`. -/
def Reports (kinds : Op → Crossing) (index : Int) (label : Name) :
    Int → View → List Op → Point → Name → AccessKind → Int × Int → Prop
  | _, _, [], _, _, _, _ => False
  | i, A, op :: rest, q, v, kind, k =>
    (q = ⟨index, i, label⟩ ∧ A.Exposed op.operands v kind k) ∨
      Reports kinds index label (i + 1) (A.apply (kinds op) (index, i) op) rest q v kind k

/-- The accesses met by a block. -/
def BlockReports (kinds : Op → Crossing) (index : Int) (b : Block) (A : View) (q : Point)
    (v : Name) (kind : AccessKind) (k : Int × Int) : Prop :=
  Reports kinds index b.name 0 A b.ops q v kind k ∨
    ∃ t ∈ b.terminator, q = ⟨index, b.ops.length, b.name⟩ ∧
      (passBlock kinds index b A).Exposed t.operands v kind k

variable {kinds : Op → Crossing} {index i : Int}

/-- Going through operations keeps the order of views; the induction is on them. -/
theorem passOps_mono (h : A ≤ B) (hB : B.Lawful) (ops : List Op) :
    passOps kinds index i A ops ≤ passOps kinds index i B ops := by
  induction ops generalizing i A B with
  | nil => exact h
  | cons op rest ih => exact ih (apply_mono h hB _ _ op) (hB.apply _ _ op)

theorem passBlock_mono (h : A ≤ B) (hB : B.Lawful) (b : Block) :
    passBlock kinds index b A ≤ passBlock kinds index b B :=
  passOps_mono h hB b.ops

theorem Lawful.passOps (hA : A.Lawful) (ops : List Op) : (passOps kinds index i A ops).Lawful := by
  induction ops generalizing i A with
  | nil => exact hA
  | cons op rest ih => exact ih (hA.apply _ _ op)

/-- What is tracked after some operations was tracked before them or is defined by
    one of them. -/
theorem tracked_passOps {ops : List Op} {n : Name} :
    (passOps kinds index i A ops).tracked n ↔ A.tracked n ∨ ∃ op ∈ ops, op.Defines n := by
  induction ops generalizing i A with
  | nil => simp [passOps]
  | cons op rest ih =>
    rw [passOps, ih, tracked_apply, or_assoc]
    simp only [List.mem_cons, exists_eq_or_imp]

theorem Exposed.mono {operands : List (Value × AccessKind)} {v : Name} {kind : AccessKind}
    {k : Int × Int} (h : A ≤ B) (he : A.Exposed operands v kind k) :
    B.Exposed operands v kind k :=
  ⟨he.1, h.noted v k none he.2⟩

/-- Every access is met again from a larger view. -/
theorem Reports.mono {label : Name} {q : Point} {v : Name} {kind : AccessKind} {k : Int × Int}
    {ops : List Op} (h : A ≤ B) (hB : B.Lawful) (hr : Reports kinds index label i A ops q v kind k) :
    Reports kinds index label i B ops q v kind k := by
  induction ops generalizing i A B with
  | nil => exact hr
  | cons op rest ih =>
    rcases hr with ⟨hq, he⟩ | hr
    · exact .inl ⟨hq, he.mono h⟩
    · exact .inr (ih (apply_mono h hB _ _ op) (hB.apply _ _ op) hr)

/-- More before a block is more accesses in it. -/
theorem BlockReports.mono {b : Block} {q : Point} {v : Name} {kind : AccessKind} {k : Int × Int}
    (h : A ≤ B) (hB : B.Lawful) (hr : BlockReports kinds index b A q v kind k) :
    BlockReports kinds index b B q v kind k := by
  rcases hr with hr | ⟨t, ht, hq, he⟩
  · exact .inl (hr.mono h hB)
  · exact .inr ⟨t, ht, hq, he.mono (passBlock_mono h hB b)⟩

end View

end Sendability
