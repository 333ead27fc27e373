/-
  A name is tracked exactly where it may be defined.

  No operation drops a name, and the one way to come by a name is a definition of a
  non-sendable value (`View.tracked_passOps`). So the names tracked at the entry of a
  block contain what is defined along any path to it (`Solution.tracked_of_walk`).
  The converse is leastness: the views that track just these names, and link and
  note everything about them, solve the inequations (`solves_defined`), and the
  entries of a solution are below them.

  An access is of a tracked name, so an operand that no path defines is none.
-/

import Sendability.Proofs.Exposure
import Sendability.Proofs.PathSoundness

namespace Sendability

open Relation (ReflTransGen)

namespace View

variable {kinds : Op → Crossing} {index : Int} {A : View} {x : Access.Summary}

-- ============================================================================
-- Accesses of tracked names
-- ============================================================================

/-- What some operations expose is tracked before them all or defined by one of them
    before the point of the access. -/
theorem opExposures_origin {i : Int} {label : Name} {ops : List Op} (hA : A.Lawful)
    (h : x ∈ opExposures kinds index label i A ops) :
    ∃ j : Nat, x.point = ⟨index, i + j, label⟩ ∧
      (A.tracked x.value ∨ ∃ op ∈ ops.take j, op.Defines x.value) := by
  induction ops generalizing i A with
  | nil => exact h.elim
  | cons op rest ih =>
    rcases h with ⟨e, -, -, ⟨k, hk⟩, rfl⟩ | h
    · exact ⟨0, by simp, .inl (hA.noted_tracked hk)⟩
    · obtain ⟨j, hpoint, hdefined⟩ := ih (hA.apply _ _ op) h
      have hnumber : i + 1 + (j : Int) = i + ((j + 1 : Nat) : Int) := by omega
      refine ⟨j + 1, by rw [hpoint, hnumber], ?_⟩
      rw [tracked_apply, or_assoc] at hdefined
      simpa using hdefined

theorem blockExposures_origin {b : Block} (hA : A.Lawful)
    (h : x ∈ blockExposures kinds index b A) :
    ∃ j : Nat, x.point = ⟨index, j, b.name⟩ ∧
      (A.tracked x.value ∨ ∃ op ∈ b.ops.take j, op.Defines x.value) := by
  rcases h with h | ⟨e, -, -, ⟨k, hk⟩, rfl⟩
  · obtain ⟨j, hpoint, hdefined⟩ := opExposures_origin hA h
    exact ⟨j, by rw [hpoint, Int.zero_add], hdefined⟩
  · refine ⟨b.ops.length, rfl, ?_⟩
    rw [List.take_length]
    exact tracked_passOps.1 ((hA.passOps b.ops).noted_tracked hk)

end View

namespace Func

variable {σ : Type} {f : Func} {c : Classifier σ} {kinds : Op → Crossing} {P : Site → Prop}
  {initial : Regions} {n x : Name}

-- ============================================================================
-- Definitions along paths
-- ============================================================================

/-- The name of a non-sendable parameter. -/
def Given (f : Func) (x : Name) : Prop := ∃ v ∈ f.params, v.sendable = false ∧ v.name = x

/-- A block of a path defines a non-sendable value of the name `x`. -/
def DefinedOn (f : Func) (path : List Name) (x : Name) : Prop :=
  ∃ p ∈ path, ∃ i b, f.At p i b ∧ ∃ op ∈ b.ops, op.Defines x

/-- The name is given or defined on a path to a block. -/
def MayDefine (f : Func) (n x : Name) : Prop :=
  f.Given x ∨ ∃ path, f.Walk path n ∧ f.DefinedOn path x

/-- A reached block has a path to it. -/
theorem exists_walk (h : f.Reaches n) : ∃ path, f.Walk path n := by
  induction h with
  | refl => exact ⟨[], .start⟩
  | tail _ hedge ih =>
    obtain ⟨path, hpath⟩ := ih
    exact ⟨_, hpath.step hedge⟩

/-- What is defined in a reached block or before it is defined on a path to the
    blocks after it. -/
theorem MayDefine.step {p : Name} {i : Nat} {b : Block} (hp : f.Reaches p) (hat : f.At p i b)
    (hedge : f.Edge p n) (h : f.MayDefine p x ∨ ∃ op ∈ b.ops, op.Defines x) : f.MayDefine n x := by
  rcases h with (hgiven | ⟨path, hpath, q, hq, hdefined⟩) | hops
  · exact .inl hgiven
  · exact .inr ⟨path ++ [p], hpath.step hedge, q, List.mem_append_left _ hq, hdefined⟩
  · obtain ⟨path, hpath⟩ := exists_walk hp
    exact .inr ⟨path ++ [p], hpath.step hedge, p, by simp, i, b, hat, hops⟩

-- ============================================================================
-- The entries of a solution
-- ============================================================================

/-- The names that are given or defined on a path are tracked at its end. -/
theorem Solution.tracked_of_walk {entries exits : Table Name Regions}
    (h : f.Solution kinds P initial entries exits) (hreg : f.Regular c kinds P initial)
    (hinitial : Regions.entry f = .ok initial) {path : List Name} (hpath : f.Walk path n)
    {s : Regions} (hs : entries.get? n = some s) (hx : f.Given x ∨ f.DefinedOn path x) :
    s.view.tracked x := by
  induction hpath generalizing s with
  | start =>
    obtain ⟨first, hfirst, -, hview⟩ := entry_view f
    obtain rfl := Except.ok.inj (hinitial.symm.trans hfirst)
    have hle : initial.view ≤ s.view := (h.above hs).start rfl
    rw [hview] at hle
    rcases hx with hgiven | ⟨p, hp, -⟩
    · exact hle.tracked x hgiven
    · cases hp
  | @step path p n hwalk hedge ih =>
    obtain ⟨i, b, hat⟩ := hreg.reached hwalk.reaches
    obtain ⟨t, e, ht, he⟩ := h.reached hwalk.reaches
    have hle : e.view ≤ s.view := (h.above hs).edge p e hedge he
    refine hle.tracked x ?_
    rw [h.exit ht he, hat.flow, View.passBlock, View.tracked_passOps]
    -- the last block of the path defines the name, or a block before it
    rcases hx with hgiven | ⟨q, hq, j, b', hat', hops⟩
    · exact .inl (ih ht (.inl hgiven))
    · rcases List.mem_append.1 hq with hq | hq
      · exact .inl (ih ht (.inr ⟨q, hq, j, b', hat', hops⟩))
      · obtain rfl := List.mem_singleton.1 hq
        obtain ⟨-, rfl⟩ := hat.unique hat'
        exact .inr hops

/-- What may be defined at a block is tracked, in one region of which everything is
    noted. -/
def defined (f : Func) (n : Name) : View where
  tracked x := f.MayDefine n x
  linked x y := f.MayDefine n x ∧ f.MayDefine n y
  noted x _ _ := f.MayDefine n x

theorem lawful_defined (f : Func) (n : Name) : (f.defined n).Lawful where
  refl h := ⟨h, h⟩
  tracked h := h.1
  symm h := ⟨h.2, h.1⟩
  trans h h' := ⟨h.1, h'.2⟩
  noted_tracked h := h
  noted_congr h _ := h.2

theorem solves_defined (hinitial : Regions.entry f = .ok initial) :
    f.Solves kinds initial f.defined where
  lawful n _ := f.lawful_defined n
  start := by
    obtain ⟨first, hfirst, -, hview⟩ := entry_view f
    obtain rfl := Except.ok.inj (hinitial.symm.trans hfirst)
    rw [hview]
    exact ⟨fun _ h => .inl h, fun _ _ h => ⟨.inl h.1, .inl h.2⟩, fun _ _ _ h => h.elim⟩
  edge := by
    rintro p n hp ⟨i, b, hat, hn⟩
    have hlawful : (View.passBlock kinds i b (f.defined p)).Lawful :=
      (f.lawful_defined p).passOps b.ops
    have htracked : ∀ x, (View.passBlock kinds i b (f.defined p)).tracked x → f.MayDefine n x :=
      fun x hx => .step hp hat ⟨i, b, hat, hn⟩ (View.tracked_passOps.1 hx)
    rw [hat.flow]
    refine ⟨htracked, ?_, ?_⟩
    · intro x y hxy
      exact ⟨htracked x (hlawful.tracked hxy), htracked y (hlawful.tracked (hlawful.symm hxy))⟩
    · intro x k o hx
      exact htracked x (hlawful.noted_tracked hx)

theorem Solution.tracked_iff {entries exits : Table Name Regions}
    (h : f.Solution kinds P initial entries exits) (hreg : f.Regular c kinds P initial)
    (hinitial : Regions.entry f = .ok initial) {s : Regions} (hs : entries.get? n = some s) :
    s.view.tracked x ↔ f.MayDefine n x := by
  constructor
  · exact (h.least (solves_defined hinitial) hs).tracked x
  · rintro (hgiven | ⟨path, hpath, hdefined⟩)
    · obtain ⟨path, hpath⟩ := exists_walk (h.only hs)
      exact h.tracked_of_walk hreg hinitial hpath hs (.inl hgiven)
    · exact h.tracked_of_walk hreg hinitial hpath hs (.inr hdefined)

-- ============================================================================
-- Accesses
-- ============================================================================

/-- The name is defined before number `j` of the block `b` on a path to the block. -/
def DefinedBefore (f : Func) (path : List Name) (b : Block) (j : Nat) (x : Name) : Prop :=
  f.Given x ∨ f.DefinedOn path x ∨ ∃ op ∈ b.ops.take j, op.Defines x

theorem Solution.access_defined {entries exits : Table Name Regions}
    (h : f.Solution kinds P initial entries exits) (hreg : f.Regular c kinds P initial)
    (hinitial : Regions.entry f = .ok initial) {memory m : σ} {accesses : List Access}
    (hcollect : f.collect c entries 0 memory f.blocks.entries = .ok (accesses, m)) {a : Access}
    (ha : a ∈ accesses) : ∃ n i b j path, f.At n i b ∧ a.point = ⟨(i : Nat), (j : Nat), b.name⟩ ∧
      f.Walk path n ∧ f.DefinedBefore path b j a.value := by
  obtain ⟨n, i, b, s, hat, hs, hx⟩ :=
    (summaries_collect hreg (fun _ _ hs => h.entryWF hs) hcollect a.summary).1 ⟨a, ha, rfl⟩
  obtain ⟨j, hpoint, hdefined⟩ :=
    View.blockExposures_origin (Regions.lawful_view (h.entryWF hs)) hx
  obtain ⟨path, hpath⟩ := exists_walk (h.only hs)
  rw [h.tracked_iff hreg hinitial hs] at hdefined
  rcases hdefined with (hgiven | ⟨path', hpath', hdefined⟩) | hops
  · exact ⟨n, i, b, j, path, hat, hpoint, hpath, .inl hgiven⟩
  · exact ⟨n, i, b, j, path', hat, hpoint, hpath', .inr (.inl hdefined)⟩
  · exact ⟨n, i, b, j, path, hat, hpoint, hpath, .inr (.inr hops)⟩

/-- An analysis reaches the blocks that control can get to, and its entry of a
    block tracks the non-sendable parameters and what is defined on some path to
    the block, and nothing else. An operand that is defined on no path to it is
    not accessed. -/
theorem solve_tracks_definitions (hvalid : f.validate = .ok ()) (hc : c.Steady)
    {memory memory' : σ} {bound : Int} {a : Analysis}
    (h : f.solve c memory bound = .ok (a, memory')) :
    (∀ n, a.reached n = true ↔ f.Reaches n) ∧
    (∀ n s, a.entries.get? n = some s → ∀ x, s.isTracked x = true ↔
      f.Given x ∨ ∃ path, f.Walk path n ∧ f.DefinedOn path x) ∧
    ∀ n i b (j : Nat) operands, f.At n i b → b.operandLists[j]? = some operands →
      ∀ e ∈ operands, (∀ path, f.Walk path n → ¬ f.DefinedBefore path b j e.1.name) →
      ∀ x ∈ a.accesses, x.point.key = ((i : Int), (j : Int)) → x.value ≠ e.1.name := by
  obtain ⟨initial, p, hinitial, hrun, hempty, hentries, -, -, hcollect⟩ := solve_ok h
  have hreg := regular_of_validate hvalid hc memory hinitial
  have hsol := (hrun.invariant hreg (invariant_start hreg.initial memory)).solution hempty
  simp only [Analysis.reached, hentries]
  refine ⟨?_, ?_, ?_⟩
  · intro n
    rw [Table.contains_iff]
    exact hsol.keys_entries n
  · intro n s hs x
    rw [Regions.isTracked_iff, ← Regions.view_tracked]
    exact hsol.tracked_iff hreg hinitial hs
  · intro n i b j operands hat _ e _ hnone x hx hkey heq
    obtain ⟨n', i', b', j', path, hat', hpoint, hpath, hdefined⟩ :=
      hsol.access_defined hreg hinitial hcollect hx
    rw [hpoint] at hkey
    obtain ⟨hi, hj⟩ := Prod.mk.inj hkey
    obtain rfl : i' = i := Int.ofNat.inj hi
    obtain rfl : j' = j := Int.ofNat.inj hj
    obtain ⟨rfl, rfl⟩ := hat.unique_of_index hat'
    rw [heq] at hdefined
    exact hnone path hpath hdefined

/-- A value is used before it is defined, and defined again on the way back. -/
def lateDefinition : Func :=
  let box : TypeInfo := ⟨"Box", false⟩
  { name := "late"
    params := [⟨"x", box⟩]
    blocks := Table.ofList
      [("entry", ⟨"entry",
         [.call { callee := "send", args := [⟨"x", box⟩], domain := some "worker" },
          .use ⟨"y", box⟩ .read {}],
         some (.goto "loop" {})⟩),
       ("loop", ⟨"loop", [.use ⟨"y", box⟩ .read {}, .init ⟨"y", box⟩ [⟨"x", box⟩] {}],
         some (.branch ["loop", "done"] none {})⟩),
       ("done", ⟨"done", [], some (.ret none {})⟩)] }

/-- The use in the first block is of a name that nothing has defined yet. The same
    use in the loop comes after a definition by the turn before, and is an access. -/
theorem lateDefinition_tracked : ∃ a, lateDefinition.validate = .ok () ∧
    lateDefinition.solve Classifier.asWritten () 40 = .ok (a, ()) ∧
    (∀ x ∈ a.accesses, x.point.key = (0, 1) → x.value ≠ "y") ∧
    (a.accesses.map fun x => (x.point.key, x.value)) =
      ([((1, 0), "y"), ((1, 1), "x")] : List ((Int × Int) × Name)) ∧
    ∀ s, a.entries.get? "loop" = some s → s.isTracked "y" = true := by
  have hvalid : lateDefinition.validate = .ok () := by decide +kernel
  have hsome : (lateDefinition.solve Classifier.asWritten () 40).toOption.isSome = true := by
    decide +kernel
  have haccesses : ((lateDefinition.solve Classifier.asWritten () 40).toOption.map fun r =>
      r.1.accesses.map fun x => (x.point.key, x.value)) =
      some ([((1, 0), "y"), ((1, 1), "x")] : List ((Int × Int) × Name)) := by
    decide +kernel
  obtain ⟨⟨a, _⟩, hs⟩ := exists_ok_of_isSome hsome
  rw [hs] at haccesses
  obtain ⟨-, htracked, hnone⟩ := solve_tracks_definitions hvalid asWritten_steady hs
  refine ⟨a, hvalid, hs, ?_, Option.some.inj haccesses, ?_⟩
  · refine hnone "entry" 0 _ 1 _ rfl rfl (⟨"y", ⟨"Box", false⟩⟩, .read) (by simp [Op.operands]) ?_
    intro path hpath
    generalize hentry : ("entry" : Name) = n at hpath
    cases hpath with
    | start =>
      have hne : ("x" : Name) ≠ "y" := by decide
      simp [DefinedBefore, Given, DefinedOn, Op.Defines, Op.dest?, lateDefinition, hne]
    | step _ hedge =>
      -- no edge leads back to the first block
      have hnil : lateDefinition.predecessors "entry" = [] := by decide +kernel
      rw [← hentry, ← mem_predecessors, hnil] at hedge
      cases hedge
  · intro s hs
    have hloop : lateDefinition.Edge "entry" "loop" := mem_predecessors.1 (by decide +kernel)
    have hback : lateDefinition.Edge "loop" "loop" := mem_predecessors.1 (by decide +kernel)
    have hwalk : lateDefinition.Walk ["entry", "loop"] "loop" :=
      (Walk.start.step hloop).step hback
    refine (htracked "loop" s hs "y").2 (.inr ⟨_, hwalk, "loop", by simp, 1, _, rfl, ?_⟩)
    exact ⟨.init ⟨"y", ⟨"Box", false⟩⟩ [⟨"x", ⟨"Box", false⟩⟩] {}, by simp, _, rfl, rfl, rfl⟩

end Func

end Sendability
