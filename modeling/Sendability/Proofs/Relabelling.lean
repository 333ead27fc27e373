/-
  Other names for values and other numbers for blocks.

  A function can be written with other names for its values, and with its blocks
  listed in another order; its states and sites change with it. Here is what
  such a change does to each of them:

    * to the program: `Op.rename`, `Block.rename`
    * to stored states: `Regions.relabel`
    * to views: `View.relabel`

  The two permutations that `View.relabel` takes are applied backwards, so a
  relabelled view answers about a name what the view answered about the name it
  stands for. Every operation on views commutes with it (`relabel_passBlock`),
  and the view of a relabelled state is the relabelled view (`view_relabel`).

  A change of names is given on the values of one function only, where it is
  injective. There it agrees with a permutation of all names
  (`exists_perm_of_injOn`), and so does what it does to states (`relabel_congr`).
-/

import Mathlib.Data.Set.Image
import Mathlib.Logic.Equiv.Basic
import Mathlib.Logic.Equiv.Set
import Sendability.Proofs.Sameness
import Sendability.Proofs.ViewTransfer

namespace Sendability

open Equiv (Perm)

-- ============================================================================
-- Programs
-- ============================================================================

/-- The value under another name. -/
def Value.rename (ρ : Name → Name) (v : Value) : Value := { v with name := ρ v.name }

/-- The call of the renamed values. -/
def Call.rename (ρ : Name → Name) (c : Call) : Call :=
  { c with
    args := c.args.map (Value.rename ρ)
    dest := c.dest.map (Value.rename ρ)
    receiver := c.receiver.map (Value.rename ρ) }

/-- The operation on the renamed values. -/
def Op.rename (ρ : Name → Name) : Op → Op
  | .init dest args loc => .init (dest.rename ρ) (args.map (Value.rename ρ)) loc
  | .load dest base field loc => .load (dest.rename ρ) (base.rename ρ) field loc
  | .copy dest src loc => .copy (dest.rename ρ) (src.rename ρ) loc
  | .store base field value loc => .store (base.rename ρ) field (value.rename ρ) loc
  | .closure dest captures loc => .closure (dest.rename ρ) (captures.map (Value.rename ρ)) loc
  | .call c => .call (c.rename ρ)
  | .use value kind loc => .use (value.rename ρ) kind loc

/-- The terminator that uses the renamed value; targets are no values. -/
def Terminator.rename (ρ : Name → Name) : Terminator → Terminator
  | .goto target loc => .goto target loc
  | .branch targets cond loc => .branch targets (cond.map (Value.rename ρ)) loc
  | .ret value loc => .ret (value.map (Value.rename ρ)) loc
  | .throw value handler loc => .throw (value.map (Value.rename ρ)) handler loc
  | .unreachable loc => .unreachable loc

/-- The block with its values renamed. -/
def Block.rename (ρ : Name → Name) (b : Block) : Block :=
  { b with
    ops := b.ops.map (Op.rename ρ)
    terminator := b.terminator.map (Terminator.rename ρ) }

section Programs

variable {ρ ρ' : Name → Name}

theorem Call.operands_rename (c : Call) :
    (c.rename ρ).operands = c.operands.map (Value.rename ρ) := by
  cases hreceiver : c.receiver with
  | none => simp [Call.operands, Call.rename, hreceiver]
  | some v => simp [Call.operands, Call.rename, hreceiver]

/-- Renaming an operation renames its operands and keeps how they are used. -/
theorem Op.operands_rename (op : Op) :
    (op.rename ρ).operands = op.operands.map fun e => (e.1.rename ρ, e.2) := by
  cases op with
  | call c => simp [Op.rename, Op.operands, Call.operands_rename, Function.comp_def]
  | init dest args loc => simp [Op.rename, Op.operands, Function.comp_def]
  | closure dest captures loc => simp [Op.rename, Op.operands, Function.comp_def]
  | _ => rfl

theorem Op.dest?_rename (op : Op) : (op.rename ρ).dest? = op.dest?.map (Value.rename ρ) := by
  cases op with
  | _ => rfl

theorem Terminator.operands_rename (t : Terminator) :
    (t.rename ρ).operands = t.operands.map fun e => (e.1.rename ρ, e.2) := by
  cases t with
  | goto target loc => rfl
  | branch targets cond loc => cases cond <;> rfl
  | ret value loc => cases value <;> rfl
  | throw value handler loc => cases value <;> rfl
  | unreachable loc => rfl

/-- Values are renamed, blocks are not. -/
theorem Terminator.successors_rename (t : Terminator) : (t.rename ρ).successors = t.successors := by
  cases t with
  | _ => rfl

theorem Block.successors_rename (b : Block) : (b.rename ρ).successors = b.successors := by
  cases hterm : b.terminator with
  | none => simp [Block.successors, Block.rename, hterm]
  | some t => simp [Block.successors, Block.rename, hterm, Terminator.successors_rename]

-- ----------------------------------------------------------------------------
-- Two changes of names that agree
-- ----------------------------------------------------------------------------

theorem Value.rename_congr {v : Value} (h : ρ v.name = ρ' v.name) : v.rename ρ = v.rename ρ' := by
  rw [Value.rename, h, Value.rename]

theorem Value.map_rename_congr {vs : List Value} (h : ∀ v ∈ vs, ρ v.name = ρ' v.name) :
    vs.map (Value.rename ρ) = vs.map (Value.rename ρ') :=
  List.map_congr_left fun v hv => Value.rename_congr (h v hv)

theorem Value.option_rename_congr {o : Option Value} (h : ∀ v ∈ o, ρ v.name = ρ' v.name) :
    o.map (Value.rename ρ) = o.map (Value.rename ρ') :=
  Option.map_congr fun v hv => Value.rename_congr (h v hv)

theorem Call.rename_congr {c : Call} (hdest : ∀ v ∈ c.dest, ρ v.name = ρ' v.name)
    (hoperands : ∀ v ∈ c.operands, ρ v.name = ρ' v.name) : c.rename ρ = c.rename ρ' := by
  have hargs := Value.map_rename_congr fun v hv => hoperands v (List.mem_append_right _ hv)
  have hreceiver := Value.option_rename_congr (o := c.receiver) fun v hv =>
    hoperands v (List.mem_append_left _ (Option.mem_toList.2 hv))
  rw [Call.rename, hargs, hreceiver, Value.option_rename_congr hdest, Call.rename]

/-- Only the names that an operation defines or uses matter for its renaming. -/
theorem Op.rename_congr {op : Op} (hdest : ∀ v ∈ op.dest?, ρ v.name = ρ' v.name)
    (hoperands : ∀ e ∈ op.operands, ρ e.1.name = ρ' e.1.name) : op.rename ρ = op.rename ρ' := by
  have hlist : ∀ (vs : List Value) (kind : AccessKind), op.operands = vs.map (·, kind) →
      ∀ v ∈ vs, ρ v.name = ρ' v.name := by
    intro vs kind hvs v hv
    exact hoperands (v, kind) (hvs ▸ List.mem_map_of_mem hv)
  cases op with
  | init dest args loc =>
    rw [Op.rename, Value.rename_congr (hdest dest rfl),
      Value.map_rename_congr (hlist args _ rfl), Op.rename]
  | load dest base field loc =>
    rw [Op.rename, Value.rename_congr (hdest dest rfl),
      Value.rename_congr (hlist [base] _ rfl base (by simp)), Op.rename]
  | copy dest src loc =>
    rw [Op.rename, Value.rename_congr (hdest dest rfl),
      Value.rename_congr (hlist [src] _ rfl src (by simp)), Op.rename]
  | store base field value loc =>
    rw [Op.rename, Value.rename_congr (hoperands (base, .write) (by simp [Op.operands])),
      Value.rename_congr (hoperands (value, .read) (by simp [Op.operands])), Op.rename]
  | closure dest captures loc =>
    rw [Op.rename, Value.rename_congr (hdest dest rfl),
      Value.map_rename_congr (hlist captures _ rfl), Op.rename]
  | call c => rw [Op.rename, Call.rename_congr hdest (hlist c.operands _ rfl), Op.rename]
  | use value kind loc =>
    rw [Op.rename, Value.rename_congr (hlist [value] _ rfl value (by simp)), Op.rename]

theorem Terminator.rename_congr {t : Terminator}
    (hoperands : ∀ e ∈ t.operands, ρ e.1.name = ρ' e.1.name) : t.rename ρ = t.rename ρ' := by
  have hone : ∀ (o : Option Value) (kind : AccessKind), t.operands = o.toList.map (·, kind) →
      o.map (Value.rename ρ) = o.map (Value.rename ρ') := by
    intro o kind ho
    refine Value.option_rename_congr fun v hv => ?_
    exact hoperands (v, kind) (ho ▸ List.mem_map_of_mem (Option.mem_toList.2 hv))
  cases t with
  | goto target loc => rfl
  | branch targets cond loc => rw [Terminator.rename, hone cond _ rfl, Terminator.rename]
  | ret value loc => rw [Terminator.rename, hone value _ rfl, Terminator.rename]
  | throw value handler loc => rw [Terminator.rename, hone value _ rfl, Terminator.rename]
  | unreachable loc => rfl

/-- Only the names in a block matter for its renaming. -/
theorem Block.rename_congr {b : Block}
    (hdests : ∀ op ∈ b.ops, ∀ v ∈ op.dest?, ρ v.name = ρ' v.name)
    (hoperands : ∀ l ∈ b.operandLists, ∀ e ∈ l, ρ e.1.name = ρ' e.1.name) :
    b.rename ρ = b.rename ρ' := by
  have hops : b.ops.map (Op.rename ρ) = b.ops.map (Op.rename ρ') := by
    refine List.map_congr_left fun op hop => Op.rename_congr (hdests op hop) ?_
    exact hoperands op.operands (List.mem_append_left _ (List.mem_map_of_mem hop))
  have hterm : b.terminator.map (Terminator.rename ρ) = b.terminator.map (Terminator.rename ρ') := by
    refine Option.map_congr fun t ht => Terminator.rename_congr ?_
    refine hoperands t.operands (List.mem_append_right _ ?_)
    exact List.mem_map_of_mem (Option.mem_toList.2 ht)
  rw [Block.rename, hops, hterm, Block.rename]

end Programs

/-- On finitely many names, an injective change is that of a permutation. -/
theorem exists_perm_of_injOn {ρ : Name → Name} {l : List Name}
    (h : ∀ a ∈ l, ∀ b ∈ l, ρ a = ρ b → a = b) : ∃ π : Perm Name, ∀ a ∈ l, π a = ρ a := by
  induction l with
  | nil => exact ⟨Equiv.refl Name, by simp⟩
  | cons a l ih =>
    obtain ⟨π, hπ⟩ := ih fun b hb c hc =>
      h b (List.mem_cons_of_mem _ hb) c (List.mem_cons_of_mem _ hc)
    -- `a` is led to its place; what is in place already is led elsewhere by both
    refine ⟨π.trans (Equiv.swap (π a) (ρ a)), ?_⟩
    intro b hb
    rw [Equiv.trans_apply]
    by_cases hba : b = a
    · rw [hba, Equiv.swap_apply_left]
    · have hbl : b ∈ l := (List.mem_cons.1 hb).resolve_left hba
      have hne : π b ≠ π a := fun heq => hba (π.injective heq)
      have hne' : π b ≠ ρ a := by
        rw [hπ b hbl]
        exact fun heq => hba (h b hb a (by simp) heq)
      rw [Equiv.swap_apply_of_ne_of_ne hne hne', hπ b hbl]

-- ============================================================================
-- Views
-- ============================================================================

namespace View

/-- The view under other names and numbers: what it answers about a name is what
    `A` answers about the name that this one stands for. -/
def relabel (π : Perm Name) (φ : Perm Int) (A : View) : View where
  tracked v := A.tracked (π.symm v)
  linked a b := A.linked (π.symm a) (π.symm b)
  noted v k o := A.noted (π.symm v) (φ.symm k.1, k.2) (o.map π.symm)

variable {π : Perm Name} {φ : Perm Int} {A B : View} {S : Set Name}

/-- Relabelling keeps the order of views. -/
theorem relabel_mono (h : A ≤ B) : A.relabel π φ ≤ B.relabel π φ :=
  ⟨fun _ => h.tracked _, fun _ _ => h.linked _ _, fun _ _ _ => h.noted _ _ _⟩

/-- Relabelling can be undone. -/
theorem relabel_symm_relabel (π : Perm Name) (φ : Perm Int) (A : View) :
    (A.relabel π.symm φ.symm).relabel π φ = A := by
  refine eq_of_iff ?_ ?_ ?_
  · intro v
    simp [relabel]
  · intro a b
    simp [relabel]
  · intro v k o
    simp [relabel, Function.comp_def]

theorem relabel_relabel_symm (π : Perm Name) (φ : Perm Int) (A : View) :
    (A.relabel π φ).relabel π.symm φ.symm = A :=
  relabel_symm_relabel π.symm φ.symm A

/-- A view above a relabelled one is above it after the change is undone. -/
theorem relabel_le_iff : A.relabel π φ ≤ B ↔ A ≤ B.relabel π.symm φ.symm := by
  refine ⟨?_, ?_⟩
  · intro h
    rw [← relabel_relabel_symm π φ A]
    exact relabel_mono h
  · intro h
    rw [← relabel_symm_relabel π φ B]
    exact relabel_mono h

/-- Views that are equal after relabelling were equal before. -/
theorem relabel_inj : A.relabel π φ = B.relabel π φ ↔ A = B := by
  refine ⟨?_, fun h => h ▸ rfl⟩
  intro h
  rw [← relabel_relabel_symm π φ A, h, relabel_relabel_symm]

/-- Relabelling keeps views lawful. -/
theorem Lawful.relabel (hA : A.Lawful) (π : Perm Name) (φ : Perm Int) :
    (A.relabel π φ).Lawful where
  refl := fun h => hA.refl h
  tracked := fun h => hA.tracked h
  symm := fun h => hA.symm h
  trans := fun h h' => hA.trans h h'
  noted_tracked := fun h => hA.noted_tracked h
  noted_congr := fun h h' => hA.noted_congr h h'

-- ----------------------------------------------------------------------------
-- Changes commute with it
-- ----------------------------------------------------------------------------

theorem relabel_clique (π : Perm Name) (φ : Perm Int) (S : Set Name) :
    (clique S).relabel π φ = clique (π '' S) := by
  refine eq_of_iff ?_ ?_ ?_
  · intro v
    exact Set.mem_image_equiv.symm
  · intro a b
    exact and_congr Set.mem_image_equiv.symm Set.mem_image_equiv.symm
  · exact fun _ _ _ => Iff.rfl

/-- Defining a name anew commutes with relabelling. -/
theorem relabel_redefine (π : Perm Name) (φ : Perm Int) (A : View) (v : Name) :
    (A.redefine v).relabel π φ = (A.relabel π φ).redefine (π v) := by
  refine eq_of_iff ?_ ?_ ?_
  · intro x
    simp [relabel, redefine, Equiv.symm_apply_eq]
  · intro a b
    simp [relabel, redefine, Equiv.symm_apply_eq]
  · intro x k o
    simp [relabel, redefine, Equiv.symm_apply_eq]

/-- A name meets a set after relabelling if it did before. -/
theorem meets_relabel (π : Perm Name) (φ : Perm Int) (A : View) (S : Set Name) (a : Name) :
    (A.relabel π φ).Meets (π '' S) a ↔ A.Meets S (π.symm a) := by
  simp only [Meets, Set.exists_mem_image, relabel, Equiv.symm_apply_apply]

/-- Uniting commutes with relabelling. -/
theorem relabel_unite (π : Perm Name) (φ : Perm Int) (A : View) (S : Set Name) :
    (A.unite S).relabel π φ = (A.relabel π φ).unite (π '' S) := by
  refine eq_of_iff (fun _ => Iff.rfl) ?_ ?_
  · intro a b
    exact or_congr_right
      (and_congr (meets_relabel π φ A S a).symm (meets_relabel π φ A S b).symm)
  · intro a k o
    refine or_congr_right (and_congr (meets_relabel π φ A S a).symm ?_)
    simp only [Set.exists_mem_image, relabel, Equiv.symm_apply_apply]

/-- Annotating commutes with relabelling, the note being relabelled too. -/
theorem relabel_annotate (π : Perm Name) (φ : Perm Int) (A : View) (S : Set Name)
    {N M : Int × Int → Option Name → Prop}
    (hNM : ∀ k o, N (φ.symm k.1, k.2) (o.map π.symm) ↔ M k o) :
    (A.annotate S N).relabel π φ = (A.relabel π φ).annotate (π '' S) M := by
  refine eq_of_iff (fun _ => Iff.rfl) (fun _ _ => Iff.rfl) ?_
  intro a k o
  exact or_congr_right (and_congr (meets_relabel π φ A S a).symm (hNM k o))

/-- What is noted when names are handed over is relabelled with them. -/
theorem handing_relabel (π : Perm Name) (φ : Perm Int) (i j : Int) (S : Set Name) (k : Int × Int)
    (o : Option Name) :
    handing (i, j) S (φ.symm k.1, k.2) (o.map π.symm) ↔ handing (φ i, j) (π '' S) k o := by
  obtain ⟨k₁, k₂⟩ := k
  refine and_congr ?_ ?_
  · simp [Equiv.symm_apply_eq]
  · cases o with
    | none => simp
    | some w => simp [Set.mem_image_equiv]

/-- The tracked values among some are relabelled one by one. -/
theorem among_relabel (π : Perm Name) (φ : Perm Int) (A : View) (vs : List Value) :
    (A.relabel π φ).among (vs.map (Value.rename π)) = π '' A.among vs := by
  ext n
  rw [Set.mem_image_equiv]
  refine and_congr Iff.rfl ?_
  simp [Value.rename, Value.sendable, Equiv.eq_symm_apply]

/-- Definitions commute with relabelling. -/
theorem relabel_define (π : Perm Name) (φ : Perm Int) (A : View) (dest : Option Value)
    (S : Set Name) : (A.define dest S).relabel π φ =
      (A.relabel π φ).define (dest.map (Value.rename π)) (π '' S) := by
  cases dest with
  | none => rfl
  | some d =>
    have hmem : (d.rename π).name ∈ π '' S ↔ d.name ∈ S := π.injective.mem_set_image
    simp only [define, Option.map_some]
    by_cases hsend : d.sendable = true
    · have hsend' : (d.rename π).sendable = true := hsend
      rw [if_pos hsend, if_pos hsend']
    · have hsend' : ¬ (d.rename π).sendable = true := hsend
      rw [if_neg hsend, if_neg hsend', relabel_unite, Set.image_insert_eq]
      by_cases hd : d.name ∈ S
      · rw [if_pos hd, if_pos (hmem.2 hd)]
        rfl
      · rw [if_neg hd, if_neg fun h => hd (hmem.1 h), relabel_redefine]
        rfl

theorem relabel_build (π : Perm Name) (φ : Perm Int) (A : View) (dest : Option Value)
    (parts : List Value) : (A.build dest parts).relabel π φ =
      (A.relabel π φ).build (dest.map (Value.rename π)) (parts.map (Value.rename π)) := by
  rw [build, relabel_define, relabel_unite, build, among_relabel]

/-- Every operation commutes with relabelling, at the point that its block was moved
    to. -/
theorem relabel_apply (π : Perm Name) (φ : Perm Int) (A : View) (kind : Crossing) (i j : Int)
    (op : Op) : (A.apply kind (i, j) op).relabel π φ =
      (A.relabel π φ).apply kind (φ i, j) (op.rename π) := by
  cases op with
  | init dest args loc => exact relabel_build π φ A (some dest) args
  | load dest base field loc => exact relabel_build π φ A (some dest) [base]
  | copy dest src loc => exact relabel_build π φ A (some dest) [src]
  | store base field value loc => exact relabel_build π φ A none [base, value]
  | closure dest captures loc => exact relabel_build π φ A (some dest) captures
  | call c =>
    simp only [apply, Op.rename, Call.operands_rename, among_relabel]
    split
    · rw [relabel_annotate π φ _ _ (handing_relabel π φ i j _), relabel_build]
      rfl
    · exact relabel_build π φ A c.dest c.operands
  | use value kind loc => rfl

variable {kinds kinds' : Op → Crossing}

/-- Going through operations commutes with relabelling, if renamed calls are
    classified alike. -/
theorem relabel_passOps (π : Perm Name) (φ : Perm Int) (index i : Int) (A : View) {ops : List Op}
    (hkinds : ∀ op ∈ ops, kinds' (op.rename π) = kinds op) :
    (passOps kinds index i A ops).relabel π φ =
      passOps kinds' (φ index) i (A.relabel π φ) (ops.map (Op.rename π)) := by
  induction ops generalizing i A with
  | nil => rfl
  | cons op rest ih =>
    rw [passOps, ih (i + 1) _ fun op' hop' => hkinds op' (List.mem_cons_of_mem _ hop'),
      relabel_apply, List.map_cons, passOps, hkinds op (by simp)]

/-- What a block makes of a relabelled view is what the block made of the view,
    relabelled. -/
theorem relabel_passBlock (π : Perm Name) (φ : Perm Int) (index : Int) (A : View) {b : Block}
    (hkinds : ∀ op ∈ b.ops, kinds' (op.rename π) = kinds op) :
    (passBlock kinds index b A).relabel π φ =
      passBlock kinds' (φ index) (b.rename π) (A.relabel π φ) :=
  relabel_passOps π φ index 0 A hkinds

end View

-- ============================================================================
-- Stored states
-- ============================================================================

/-- The table with other keys and other values. -/
def Table.relabel {κ α β : Type} [DecidableEq κ] (ρ : κ → κ) (g : α → β) (t : Table κ α) :
    Table κ β :=
  .ofList (t.entries.map fun e => (ρ e.1, g e.2))

/-- The point after its block got another number. -/
def Point.renumber (φ : Int → Int) (p : Point) : Point := { p with block := φ p.block }

/-- The site at the renumbered point that hands over the renamed values. -/
def Site.relabel (ρ : Name → Name) (φ : Int → Int) (x : Site) : Site :=
  { x with point := x.point.renumber φ, values := x.values.map ρ }

/-- The relabelled sites, in the program order of their new points. -/
def Record.relabel (ρ : Name → Name) (φ : Int → Int) (r : Record) : Record :=
  ⟨sortBy (fun a b => a.point.le b.point) (r.sites.map (Site.relabel ρ φ))⟩

/-- The forest on the renamed names. -/
def Partition.relabel (ρ : Name → Name) (p : Partition) : Partition :=
  ⟨p.parents.relabel ρ ρ, p.weights.relabel ρ id⟩

/-- The regions of the renamed names, with relabelled records. -/
def Regions.relabel (ρ : Name → Name) (φ : Int → Int) (s : Regions) : Regions :=
  ⟨s.partition.relabel ρ, s.records.relabel ρ (Record.relabel ρ φ)⟩

namespace Table

variable {κ α β : Type} [DecidableEq κ]

/-- Entries that are inserted one after the other are found, before what was there. -/
theorem get?_foldl_entries {l : List (κ × α)} (hl : (l.map Prod.fst).Nodup) (t : Table κ α)
    (k : κ) : (l.foldl (fun t e => t.insert e.1 e.2) t).get? k = (lookup k l).or (t.get? k) := by
  induction l generalizing t with
  | nil => rfl
  | cons e l ih =>
    obtain ⟨q, a⟩ := e
    rw [List.map_cons, List.nodup_cons] at hl
    rw [List.foldl_cons, ih hl.2, get?_insert, lookup_cons]
    by_cases hqk : q = k
    · -- the key does not come again
      have hnone : lookup k l = none := by
        rw [Option.eq_none_iff_forall_ne_some]
        intro b hb
        have hmem := (mem_keys_iff ⟨l, hl.2⟩ k).2 (Option.isSome_iff_exists.2 ⟨b, hb⟩)
        exact hl.1 (hqk ▸ hmem)
      rw [if_pos hqk, if_pos hqk, hnone]
      rfl
    · rw [if_neg hqk, if_neg hqk]

theorem lookup_map (π : Perm κ) (g : α → β) (l : List (κ × α)) (k : κ) :
    lookup k (l.map fun e => (π e.1, g e.2)) = (lookup (π.symm k) l).map g := by
  induction l with
  | nil => rfl
  | cons e l ih =>
    rw [List.map_cons, lookup_cons, ih, lookup_cons]
    by_cases hk : e.1 = π.symm k
    · rw [if_pos ((Equiv.eq_symm_apply π).1 hk), if_pos hk]
      rfl
    · rw [if_neg fun h => hk ((Equiv.eq_symm_apply π).2 h), if_neg hk]

/-- A look-up in a relabelled table is one of the key that stood there. -/
theorem get?_relabel (π : Perm κ) (g : α → β) (t : Table κ α) (k : κ) :
    (t.relabel π g).get? k = (t.get? (π.symm k)).map g := by
  have hnodup : ((t.entries.map fun e => (π e.1, g e.2)).map Prod.fst).Nodup := by
    have hkeys : (t.entries.map fun e => (π e.1, g e.2)).map Prod.fst = t.keys.map π := by
      simp only [keys, List.map_map]
      rfl
    rw [hkeys]
    exact t.nodup.map π.injective
  rw [relabel, ofList, get?_foldl_entries hnodup, lookup_map]
  exact Option.or_none

/-- The keys of a relabelled table are the relabelled ones. -/
theorem mem_keys_relabel (π : Perm κ) (g : α → β) (t : Table κ α) (k : κ) :
    k ∈ (t.relabel π g).keys ↔ π.symm k ∈ t.keys := by
  rw [mem_keys_iff, get?_relabel, Option.isSome_map, mem_keys_iff]

/-- Changes that agree on a table give one table. -/
theorem relabel_congr {ρ ρ' : κ → κ} {g g' : α → β} {t : Table κ α}
    (h : ∀ k a, t.get? k = some a → ρ k = ρ' k ∧ g a = g' a) :
    t.relabel ρ g = t.relabel ρ' g' := by
  have hentries : (t.entries.map fun e => (ρ e.1, g e.2)) =
      t.entries.map fun e => (ρ' e.1, g' e.2) := by
    refine List.map_congr_left fun e he => ?_
    obtain ⟨hk, ha⟩ := h e.1 e.2 ((mem_entries_iff t e.1 e.2).1 he)
    rw [hk, ha]
  rw [relabel, hentries, relabel]

end Table

namespace Partition

variable {p : Partition} {v r : Name}

/-- The way up from a name is relabelled with the parents. -/
theorem Path.relabel {parents parents' : Table Name Name} {l : List Name} {π : Perm Name}
    (h : ∀ k, parents'.get? (π k) = (parents.get? k).map π) (hpath : Path parents v l r) :
    Path parents' (π v) (l.map π) (π r) := by
  induction hpath with
  | root hr => exact .root (by rw [h, hr]; rfl)
  | step hv hne _ ih =>
    refine .step (by rw [h, hv]; rfl) (fun heq => hne (π.injective heq)) ih

/-- Names are represented as the names were that they stand for. -/
theorem rep_relabel (π : Perm Name) (p : Partition) (v r : Name) :
    (p.relabel π).Rep v r ↔ p.Rep (π.symm v) (π.symm r) := by
  refine ⟨?_, ?_⟩
  · rintro ⟨l, hl⟩
    refine ⟨l.map π.symm, hl.relabel fun k => ?_⟩
    simp [Partition.relabel, Table.get?_relabel, Function.comp_def]
  · rintro ⟨l, hl⟩
    have hback : Path (p.relabel π).parents (π (π.symm v)) (l.map π) (π (π.symm r)) := by
      refine hl.relabel fun k => ?_
      simp [Partition.relabel, Table.get?_relabel]
    rw [Equiv.apply_symm_apply, Equiv.apply_symm_apply] at hback
    exact ⟨_, hback⟩

theorem mem_names_relabel (π : Perm Name) (p : Partition) (v : Name) :
    v ∈ (p.relabel π).names ↔ π.symm v ∈ p.names :=
  Table.mem_keys_relabel π π p.parents v

theorem WellFormed.relabel (hp : p.WellFormed) (π : Perm Name) : (p.relabel π).WellFormed where
  rep := by
    intro v hv
    obtain ⟨r, hr⟩ := hp.rep _ ((mem_names_relabel π p v).1 hv)
    exact ⟨π r, (rep_relabel π p v (π r)).2 (by rwa [Equiv.symm_apply_apply])⟩
  weights := by
    intro r
    rw [rep_relabel, ← hp.weights]
    exact Table.mem_keys_relabel π id p.weights r

theorem relabel_congr {ρ ρ' : Name → Name} (hp : p.WellFormed) (h : ∀ v ∈ p.names, ρ v = ρ' v) :
    p.relabel ρ = p.relabel ρ' := by
  have hparents : p.parents.relabel ρ ρ = p.parents.relabel ρ' ρ' := by
    refine Table.relabel_congr fun v u hu => ?_
    have hv : v ∈ p.names := (Table.mem_keys_iff _ _).2 (by rw [hu]; rfl)
    obtain ⟨r, hr⟩ := hp.rep v hv
    exact ⟨h v hv, h u (Rep.of_parent hu hr).mem_names⟩
  have hweights : p.weights.relabel ρ id = p.weights.relabel ρ' id := by
    refine Table.relabel_congr fun r w hw => ⟨h r ?_, rfl⟩
    have hr : r ∈ p.weights.keys := (Table.mem_keys_iff _ _).2 (by rw [hw]; rfl)
    exact ((hp.weights r).1 hr).mem_names
  rw [Partition.relabel, hparents, hweights, Partition.relabel]

end Partition

section Sites

variable {π : Perm Name} {φ : Perm Int}

/-- A relabelled site notes what the site notes, relabelled. -/
theorem Site.notes_relabel (x : Site) (k : Int × Int) (o : Option Name) :
    (x.relabel π φ).Notes k o ↔ x.Notes (φ.symm k.1, k.2) (o.map π.symm) := by
  obtain ⟨k₁, k₂⟩ := k
  refine and_congr ?_ ?_
  · simp [Site.relabel, Point.renumber, Point.key, Equiv.eq_symm_apply]
  · cases o with
    | none => simp
    | some w =>
      have hmem : w ∈ x.values.map π ↔ π.symm w ∈ x.values := by
        simp only [List.mem_map, ← Equiv.eq_symm_apply, exists_eq_right]
      simpa [Site.relabel] using hmem

theorem Site.relabel_congr {ρ ρ' : Name → Name} {x : Site} (h : ∀ w ∈ x.values, ρ w = ρ' w)
    (φ : Int → Int) : x.relabel ρ φ = x.relabel ρ' φ := by
  rw [Site.relabel, List.map_congr_left h, Site.relabel]

/-- A relabelled record notes what the record notes, relabelled. -/
theorem Record.notes_relabel (r : Record) (k : Int × Int) (o : Option Name) :
    (r.relabel π φ).Notes k o ↔ r.Notes (φ.symm k.1, k.2) (o.map π.symm) := by
  simp only [Record.Notes, Record.relabel, mem_sortBy, List.mem_map, exists_exists_and_eq_and,
    Site.notes_relabel]

/-- Sorting makes a relabelled record proper again, since points stay apart. -/
theorem Record.Proper.relabel {r : Record} (hr : r.Proper) (π : Perm Name) (φ : Perm Int) :
    (r.relabel π φ).Proper where
  ordered := pairwise_sortBy (fun a b => Point.le_total a.point b.point)
    (fun a b c => Point.le_trans a.point b.point c.point) _
  nodup := by
    rw [Record.relabel, ((perm_sortBy _ _).map _).nodup_iff, List.map_map]
    have hkeys : (fun x : Site => x.point.key) ∘ Site.relabel π φ =
        Prod.map φ id ∘ fun x : Site => x.point.key := rfl
    rw [hkeys, ← List.map_map]
    exact hr.nodup.map (Function.Injective.prodMap φ.injective Function.injective_id)

end Sites

namespace Regions

variable {P Q : Site → Prop} {s : Regions} {π : Perm Name} {φ : Perm Int}

/-- The record of a relabelled representative is the relabelled record. -/
theorem recordAt_relabel (s : Regions) (r : Name) :
    (s.relabel π φ).recordAt r = (s.recordAt (π.symm r)).relabel π φ := by
  rw [recordAt, relabel, Table.get?_relabel, recordAt]
  cases s.records.get? (π.symm r) with
  | none => rfl
  | some rec => rfl

theorem WellFormed.relabel (hs : s.WellFormed P) (hPQ : ∀ x, P x → Q (x.relabel π φ)) :
    (s.relabel π φ).WellFormed Q where
  partition := hs.partition.relabel π
  records := by
    intro r rec hr
    rw [Regions.relabel, Table.get?_relabel, Option.map_eq_some_iff] at hr
    obtain ⟨rec₀, hget, rfl⟩ := hr
    obtain ⟨hrep, hkept⟩ := hs.records _ rec₀ hget
    refine ⟨(Partition.rep_relabel π s.partition r r).2 hrep, hkept.proper.relabel π φ, ?_, ?_⟩
    · obtain ⟨x, hx⟩ := List.exists_mem_of_ne_nil _ hkept.nonempty
      refine List.ne_nil_of_mem (a := x.relabel π φ) ?_
      exact (mem_sortBy _ _ _).2 (List.mem_map_of_mem hx)
    · intro y hy
      obtain ⟨x, hx, rfl⟩ := List.mem_map.1 ((mem_sortBy _ _ _).1 hy)
      exact hPQ x (hkept.sites x hx)

/-- The view of a relabelled state is the relabelled view. -/
theorem view_relabel (hs : s.WellFormed P) (π : Perm Name) (φ : Perm Int) :
    (s.relabel π φ).view = s.view.relabel π φ := by
  have hs' : (s.relabel π φ).WellFormed fun _ => True := hs.relabel fun _ _ => trivial
  refine View.eq_of_iff ?_ ?_ ?_
  · intro v
    rw [view_tracked, names, relabel, Partition.mem_names_relabel]
    exact view_tracked.symm
  · intro a b
    rw [view_linked hs', View.relabel, view_linked hs]
    simp only [relabel, Partition.rep_relabel]
    exact (π.symm.surjective.exists (p := fun r => s.partition.Rep (π.symm a) r ∧
      s.partition.Rep (π.symm b) r)).symm
  · intro v k o
    rw [view_noted hs', View.relabel, view_noted hs]
    simp only [recordAt_relabel, Record.notes_relabel]
    simp only [relabel, Partition.rep_relabel]
    exact (π.symm.surjective.exists (p := fun r => s.partition.Rep (π.symm v) r ∧
      (s.recordAt r).Notes (φ.symm k.1, k.2) (o.map π.symm))).symm

/-- What a change of names does to a state depends on the names that are tracked
    or handed over. -/
theorem relabel_congr {ρ ρ' : Name → Name} (hs : s.WellFormed P)
    (hnames : ∀ v, s.view.tracked v → ρ v = ρ' v)
    (hvalues : ∀ x, P x → ∀ w ∈ x.values, ρ w = ρ' w) (φ : Int → Int) :
    s.relabel ρ φ = s.relabel ρ' φ := by
  have hrecords : s.records.relabel ρ (Record.relabel ρ φ) =
      s.records.relabel ρ' (Record.relabel ρ' φ) := by
    refine Table.relabel_congr fun r rec hrec => ?_
    obtain ⟨hrep, hkept⟩ := hs.records r rec hrec
    refine ⟨hnames r (view_tracked.2 hrep.mem_names), ?_⟩
    have hsites : rec.sites.map (Site.relabel ρ φ) = rec.sites.map (Site.relabel ρ' φ) :=
      List.map_congr_left fun x hx => Site.relabel_congr (hvalues x (hkept.sites x hx)) φ
    rw [Record.relabel, hsites, Record.relabel]
  rw [relabel, hrecords, relabel,
    Partition.relabel_congr hs.partition fun v hv => hnames v (view_tracked.2 hv)]

end Regions

end Sendability
