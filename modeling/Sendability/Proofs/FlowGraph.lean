/-
  The control-flow graph of a function that passed validation.

  `Func.At f n i b` places a block: `b` stands under the name `n` as number `i`.
  All look-ups of the analysis are look-ups of such a place. `Func.Edge` and
  `Func.Reaches` are the edges of the graph and what they reach from the entry;
  in a function that passed validation every reached name has a block, and every
  operand has a definition.
-/

import Mathlib.Data.List.Nodup
import Mathlib.Logic.Relation
import Sendability.IR.Validity

namespace Sendability

/-- Of two steps that succeed, each does. -/
theorem ok_of_bind {ε α β : Type} {x : Except ε α} {g : α → Except ε β} {r : β}
    (h : x >>= g = .ok r) : ∃ a, x = .ok a ∧ g a = .ok r := by
  cases x with
  | error e => cases h
  | ok a => exact ⟨a, rfl, h⟩

/-- Of two steps that fail, the first fails or the second does after it. -/
theorem error_of_bind {ε α β : Type} {x : Except ε α} {g : α → Except ε β} {e : ε}
    (h : x >>= g = .error e) : x = .error e ∨ ∃ a, x = .ok a ∧ g a = .error e := by
  cases x with
  | error e =>
    cases h
    exact .inl rfl
  | ok a => exact .inr ⟨a, rfl, h⟩

theorem ok_of_map {ε α β : Type} {x : Except ε α} {g : α → β} {b : β} (h : x.map g = .ok b) :
    ∃ a, x = .ok a ∧ g a = b := by
  cases x with
  | error e => cases h
  | ok a => exact ⟨a, rfl, Except.ok.inj h⟩

theorem exists_ok_of_isSome {ε α : Type} {x : Except ε α} (h : x.toOption.isSome = true) :
    ∃ a, x = .ok a := by
  cases x with
  | error e => cases h
  | ok a => exact ⟨a, rfl⟩

namespace Func

variable {f : Func} {n p t : Name} {i : Nat} {b : Block}

/-- The block `b` stands under the name `n` as number `i` in program order. -/
def At (f : Func) (n : Name) (i : Nat) (b : Block) : Prop := f.blocks.entries[i]? = some (n, b)

theorem At.get? (h : f.At n i b) : f.blocks.get? n = some b :=
  (Table.mem_entries_iff _ _ _).1 (List.mem_of_getElem? h)

theorem At.keys (h : f.At n i b) : f.blocks.keys[i]? = some n := by
  rw [Table.keys, List.getElem?_map, h]
  rfl

/-- A name stands at one place. -/
theorem At.unique {i' : Nat} {b' : Block} (h : f.At n i b) (h' : f.At n i' b') :
    i = i' ∧ b = b' := by
  have hb : b = b' := Option.some.inj (h.get?.symm.trans h'.get?)
  obtain ⟨hi, hin⟩ := List.getElem?_eq_some_iff.1 h.keys
  obtain ⟨hi', hin'⟩ := List.getElem?_eq_some_iff.1 h'.keys
  have hnodup : f.blocks.keys.Nodup := f.blocks.nodup
  exact ⟨(hnodup.getElem_inj_iff).1 (hin.trans hin'.symm), hb⟩

/-- A place has one block. -/
theorem At.unique_of_index {n' : Name} {b' : Block} (h : f.At n i b) (h' : f.At n' i b') :
    n = n' ∧ b = b' :=
  Prod.mk.inj (Option.some.inj (h.symm.trans h'))

/-- The number of a block is found by its name. -/
theorem At.blockIndex? (h : f.At n i b) : f.blockIndex? n = some i := by
  rw [Func.blockIndex?, List.findIdx?_eq_some_iff_getElem]
  obtain ⟨hi, hin⟩ := List.getElem?_eq_some_iff.1 h.keys
  refine ⟨hi, by simp [hin], ?_⟩
  intro j hji
  have hj : j < f.blocks.keys.length := by omega
  have hnodup : f.blocks.keys.Nodup := f.blocks.nodup
  rw [decide_eq_true_iff]
  intro hjn
  have heq := (hnodup.getElem_inj_iff).1 (hjn.trans hin.symm)
  omega

theorem exists_at (h : f.blocks.get? n = some b) : ∃ i, f.At n i b :=
  List.getElem?_of_mem ((Table.mem_entries_iff _ _ _).2 h)

theorem exists_at_of_mem (h : n ∈ f.blocks.keys) : ∃ i b, f.At n i b := by
  obtain ⟨b, hb⟩ := Option.isSome_iff_exists.1 ((Table.mem_keys_iff _ _).1 h)
  obtain ⟨i, hi⟩ := exists_at hb
  exact ⟨i, b, hi⟩

-- ============================================================================
-- Edges
-- ============================================================================

/-- Control can go from the block `p` to the block `t`. -/
def Edge (f : Func) (p t : Name) : Prop := ∃ i b, f.At p i b ∧ t ∈ b.successors

/-- Control can go from the entry to the block `n`. -/
def Reaches (f : Func) (n : Name) : Prop := Relation.ReflTransGen f.Edge f.entry n

/-- The predecessors are those with an edge. -/
theorem mem_predecessors : p ∈ f.predecessors t ↔ f.Edge p t := by
  simp only [predecessors, List.mem_map, List.mem_filter, List.contains_iff_mem]
  refine ⟨?_, ?_⟩
  · rintro ⟨⟨n, b⟩, ⟨hmem, ht⟩, rfl⟩
    obtain ⟨i, hi⟩ := List.getElem?_of_mem hmem
    exact ⟨i, b, hi, ht⟩
  · rintro ⟨i, b, hb, ht⟩
    exact ⟨(p, b), ⟨List.mem_of_getElem? hb, ht⟩, rfl⟩

theorem At.edge_iff (h : f.At p i b) : f.Edge p t ↔ t ∈ b.successors := by
  refine ⟨?_, fun ht => ⟨i, b, h, ht⟩⟩
  rintro ⟨i', b', h', ht⟩
  rw [(h.unique h').2]
  exact ht

-- ============================================================================
-- Validation
-- ============================================================================

theorem mem_blocks_of_checkTargets {blocks : Table Name Block} {block : Name} {loc : Span}
    {l : List Name} (h : checkTargets blocks block loc l = .ok ()) : ∀ t ∈ l, t ∈ blocks.keys := by
  induction l with
  | nil => simp
  | cons a l ih =>
    rw [checkTargets] at h
    split at h
    · rename_i ha
      intro t ht
      rcases List.mem_cons.1 ht with rfl | ht
      · exact (Table.contains_iff _ _).1 ha
      · exact ih h t ht
    · cases h

/-- A block that passed has its own name and a terminator, and what they use and
    name was looked up. -/
theorem validateBlock_ok {defined : Table Name TypeInfo} {key : Name}
    (h : f.validateBlock defined key b = .ok ()) :
    b.name = key ∧ ∃ t, b.terminator = some t ∧ checkOps defined key b.ops = .ok () ∧
      checkOperands defined key t.loc t.operands = .ok () ∧
      checkTargets f.blocks key t.loc t.successors = .ok () := by
  rw [validateBlock] at h
  split at h
  · cases h
  · rename_i hname
    cases ht : b.terminator with
    | none =>
      rw [ht] at h
      cases h
    | some t =>
      rw [ht] at h
      obtain ⟨⟨⟩, hops, h⟩ := ok_of_bind h
      obtain ⟨⟨⟩, hoperands, h⟩ := ok_of_bind h
      exact ⟨not_not.1 hname, t, rfl, hops, hoperands, h⟩

/-- An accepted block leads to blocks that are there. -/
theorem successors_of_validateBlock {defined : Table Name TypeInfo} {key : Name}
    (h : f.validateBlock defined key b = .ok ()) : ∀ t ∈ b.successors, t ∈ f.blocks.keys := by
  obtain ⟨-, t, ht, -, -, htargets⟩ := validateBlock_ok h
  rw [Block.successors, ht]
  exact mem_blocks_of_checkTargets htargets

theorem mem_keys_of_checkOperands {defined : Table Name TypeInfo} {block : Name} {loc : Span}
    {l : List (Value × AccessKind)} (h : checkOperands defined block loc l = .ok ()) :
    ∀ e ∈ l, e.1.name ∈ defined.keys := by
  induction l with
  | nil => simp
  | cons a l ih =>
    rw [checkOperands] at h
    split at h
    · rename_i ha
      intro e he
      rcases List.mem_cons.1 he with rfl | he
      · exact (Table.contains_iff _ _).1 ha
      · exact ih h e he
    · cases h

theorem mem_keys_of_checkOps {defined : Table Name TypeInfo} {block : Name} {ops : List Op}
    (h : checkOps defined block ops = .ok ()) :
    ∀ op ∈ ops, ∀ e ∈ op.operands, e.1.name ∈ defined.keys := by
  induction ops with
  | nil => simp
  | cons op ops ih =>
    obtain ⟨⟨⟩, hop, hrest⟩ := ok_of_bind h
    intro op' hop'
    rcases List.mem_cons.1 hop' with rfl | hop'
    · exact mem_keys_of_checkOperands hop
    · exact ih hrest op' hop'

/-- The names with a type are those that were there and those of the definitions. -/
theorem mem_keys_of_collectTypes {loc : Span} {vs : List Value} {defined out : Table Name TypeInfo}
    (h : collectTypes loc defined vs = .ok out) {n : Name} (hn : n ∈ out.keys) :
    n ∈ defined.keys ∨ ∃ v ∈ vs, v.name = n := by
  induction vs generalizing defined with
  | nil =>
    obtain rfl := Except.ok.inj h
    exact .inl hn
  | cons v vs ih =>
    have hnext : collectTypes loc (defined.insert v.name v.type) vs = .ok out := by
      rw [collectTypes] at h
      split at h
      · split at h
        · exact h
        · cases h
      · exact h
    rcases ih hnext with hkey | ⟨w, hw, hwn⟩
    · rw [Table.mem_keys_iff, Table.get?_insert] at hkey
      split at hkey
      · rename_i hv
        exact .inr ⟨v, by simp, hv⟩
      · exact .inl ((Table.mem_keys_iff _ _).2 hkey)
    · exact .inr ⟨w, List.mem_cons_of_mem _ hw, hwn⟩

theorem validateBlock_of_validateBlocks {defined : Table Name TypeInfo}
    {l : List (Name × Block)} (h : f.validateBlocks defined l = .ok ()) :
    ∀ e ∈ l, f.validateBlock defined e.1 e.2 = .ok () := by
  induction l with
  | nil => simp
  | cons e l ih =>
    simp only [validateBlocks, bind, Except.bind] at h
    split at h
    · cases h
    · rename_i he
      intro e' he'
      rcases List.mem_cons.1 he' with rfl | he'
      · exact he
      · exact ih h e' he'

/-- An accepted function has its first block, and all its blocks are accepted. -/
theorem validate_ok (h : f.validate = .ok ()) : f.entry ∈ f.blocks.keys ∧
    ∃ defined, collectTypes f.loc {} f.definitions = .ok defined ∧
      ∀ {n i b}, f.At n i b → f.validateBlock defined n b = .ok () := by
  rw [validate] at h
  split at h
  · rename_i hentry
    obtain ⟨defined, hdefined, hblocks⟩ := ok_of_bind h
    refine ⟨(Table.contains_iff _ _).1 hentry, defined, hdefined, ?_⟩
    intro n i b hat
    exact validateBlock_of_validateBlocks hblocks (n, b) (List.mem_of_getElem? hat)
  · cases h

/-- The entry has a block, and so has every target of a jump. -/
theorem targets_of_validate (h : f.validate = .ok ()) :
    f.entry ∈ f.blocks.keys ∧ ∀ p t, f.Edge p t → t ∈ f.blocks.keys := by
  obtain ⟨hentry, defined, -, hblocks⟩ := validate_ok h
  refine ⟨hentry, ?_⟩
  rintro p t ⟨i, b, hb, ht⟩
  exact successors_of_validateBlock (hblocks hb) t ht

theorem name_of_validate (h : f.validate = .ok ()) (hat : f.At n i b) : b.name = n := by
  obtain ⟨-, defined, -, hblocks⟩ := validate_ok h
  exact (validateBlock_ok (hblocks hat)).1

/-- What an operation or a terminator uses has a definition. -/
theorem defined_of_validate (h : f.validate = .ok ()) (hat : f.At n i b)
    {operands : List (Value × AccessKind)} (hoperands : operands ∈ b.operandLists)
    {e : Value × AccessKind} (he : e ∈ operands) : ∃ d ∈ f.definitions, d.name = e.1.name := by
  obtain ⟨-, defined, hdefined, hblocks⟩ := validate_ok h
  obtain ⟨-, t, ht, hops, hterm, -⟩ := validateBlock_ok (hblocks hat)
  have hkey : e.1.name ∈ defined.keys := by
    rw [Block.operandLists, ht] at hoperands
    rcases List.mem_append.1 hoperands with hop | hop
    · obtain ⟨op, hmem, rfl⟩ := List.mem_map.1 hop
      exact mem_keys_of_checkOps hops op hmem e he
    · obtain rfl : operands = t.operands := by simpa using hop
      exact mem_keys_of_checkOperands hterm e he
  rcases mem_keys_of_collectTypes hdefined hkey with hnone | hd
  · cases hnone
  · exact hd

/-- Every block that is reached is there. -/
theorem Reaches.exists_at (hvalid : f.validate = .ok ()) (h : f.Reaches n) :
    ∃ i b, f.At n i b := by
  obtain ⟨hentry, htargets⟩ := targets_of_validate hvalid
  rcases Relation.ReflTransGen.cases_tail h with rfl | ⟨p, -, hedge⟩
  · exact exists_at_of_mem hentry
  · exact exists_at_of_mem (htargets p n hedge)

end Func

end Sendability
