/-
  How many evaluations the worklist loop can make.

  Entries stay below the view that has all the names of the function in one
  region and all the operands of its calls noted about it, since that view
  solves the inequations (`solves_largest`). So each entry has a rank of at most
  `2 V + V K`, for `V` names and `K` operands. Every time a block is queued its
  entry is new or has grown, so the evaluations made and the blocks queued are
  paid for by the ranks of the entries (`Func.Paid`). Moves keep this, whatever
  block is taken next.
-/

import Mathlib.Algebra.Order.BigOperators.Group.List
import Mathlib.Algebra.Order.Ring.Nat
import Sendability.Proofs.DataFlow
import Sendability.Proofs.Rank

namespace Sendability

open Relation (ReflTransGen)

-- ============================================================================
-- Sums over tables
-- ============================================================================

/-- The sum of the weights of the values. -/
def Table.total {κ α : Type} (weight : α → Nat) (t : Table κ α) : Nat := (t.values.map weight).sum

/-- An insertion changes the total by what it puts in place of what was there. -/
theorem Table.total_insert {κ α : Type} [DecidableEq κ] (weight : α → Nat) (t : Table κ α) (k : κ)
    (a : α) : (t.insert k a).total weight + ((t.get? k).map weight).getD 0 =
      t.total weight + weight a := by
  obtain ⟨l, hl⟩ := t
  simp only [total, values, insert, get?]
  clear hl
  induction l with
  | nil => simp [enter]
  | cons x rest ih =>
    obtain ⟨k', b⟩ := x
    rw [enter, lookup]
    split
    · simp
      omega
    · simp only [List.map_cons, List.sum_cons]
      omega

-- ============================================================================
-- Operands of calls
-- ============================================================================

/-- The names of the non-sendable values that a call is given, each once. -/
def Op.handed : Op → List Name
  | .call c => distinct ((c.operands.filter fun v => !v.sendable).map Value.name)
  | _ => []

theorem Op.mem_handed {c : Call} {v : Value} (hv : v ∈ c.operands) (hsend : v.sendable = false) :
    v.name ∈ (Op.call c).handed := by
  simp only [Op.handed, mem_distinct, List.mem_map, List.mem_filter]
  exact ⟨v, ⟨hv, by simp [hsend]⟩, rfl⟩

namespace Func

variable {σ : Type} {f : Func} {c : Classifier σ} {kinds : Op → Crossing} {P : Site → Prop}
  {initial : Regions} {n : Name} {i : Nat} {b : Block}

/-- The number of non-sendable operands of the calls of a function. -/
def operandCount (f : Func) : Nat :=
  ((f.blocks.values.flatMap Block.ops).map fun op => op.handed.length).sum

/-- The non-sendable operands of the calls of a function, with the points of the
    calls. -/
def handings (f : Func) : List ((Int × Int) × Name) :=
  f.blocks.entries.zipIdx.flatMap fun e => e.1.2.ops.zipIdx.flatMap fun o =>
    o.1.handed.map fun w => (((e.2 : Int), (o.2 : Int)), w)

/-- What a call hands over is counted with the point of the call. -/
theorem At.mem_handings (hat : f.At n i b) {j : Nat} {op : Op} (hop : b.ops[j]? = some op)
    {w : Name} (hw : w ∈ op.handed) : (((i : Int), (j : Int)), w) ∈ f.handings := by
  refine List.mem_flatMap.2 ⟨((n, b), i), List.mem_zipIdx_iff_getElem?.2 hat, ?_⟩
  refine List.mem_flatMap.2 ⟨(op, j), List.mem_zipIdx_iff_getElem?.2 hop, ?_⟩
  exact List.mem_map.2 ⟨w, hw, rfl⟩

/-- The places in a list play no part in a sum over its members. -/
theorem sum_map_zipIdx {α : Type} (l : List α) (weight : α → Nat) :
    (l.zipIdx.map fun x => weight x.1).sum = (l.map weight).sum := by
  have hmap : (l.zipIdx.map fun x => weight x.1) = (l.zipIdx.map Prod.fst).map weight := by
    rw [List.map_map]
    rfl
  rw [hmap, List.zipIdx_map_fst]

/-- There are as many pairs of a point and a name as operands are counted. -/
theorem length_handings (f : Func) : f.handings.length = f.operandCount := by
  have hblock : ∀ (l : List Op) (k : Nat), (l.zipIdx.flatMap fun o =>
      o.1.handed.map fun w => (((k : Int), (o.2 : Int)), w)).length =
      (l.map fun op => op.handed.length).sum := by
    intro l k
    rw [List.length_flatMap, ← sum_map_zipIdx l fun op => op.handed.length]
    simp only [List.length_map]
  rw [handings, List.length_flatMap]
  simp only [hblock]
  rw [sum_map_zipIdx f.blocks.entries fun e => (e.2.ops.map fun op => op.handed.length).sum,
    operandCount, Table.values, List.flatMap_map, List.map_flatMap, List.flatMap_def,
    List.sum_flatten, List.map_map]
  rfl

-- ============================================================================
-- The largest view of a function
-- ============================================================================

theorem mem_regionNames {v : Value} (hv : v ∈ f.definitions) (hsend : v.sendable = false) :
    v.name ∈ f.regionNames := by
  simp only [regionNames, mem_distinct, List.mem_map, List.mem_filter]
  exact ⟨v, ⟨hv, by simp [hsend]⟩, rfl⟩

theorem At.mem_definitions (hat : f.At n i b) {op : Op} (hop : op ∈ b.ops) {d : Value}
    (hd : d ∈ op.dest?) : d ∈ f.definitions := by
  have hb : b ∈ f.blocks.values := List.mem_map_of_mem (List.mem_of_getElem? hat)
  refine List.mem_append_right _ (List.mem_flatMap.2 ⟨b, hb, ?_⟩)
  exact List.mem_filterMap.2 ⟨op, hop, hd⟩

/-- All the names of the function in one region, with all the operands of its
    calls noted about it. -/
def largest (f : Func) : View := View.full f.regionNames.toFinset f.handings.toFinset

/-- No block leads out of the largest view. -/
theorem flow_largest_le (hat : f.At n i b) : f.flow kinds n f.largest ≤ f.largest := by
  rw [hat.flow]
  refine View.passOps_full_le kinds i ?_ ?_
  · intro op hop d hd hsend
    exact List.mem_toFinset.2 (mem_regionNames (hat.mem_definitions hop hd) hsend)
  · intro j call hop v hv hsend
    rw [Int.zero_add]
    exact List.mem_toFinset.2 (hat.mem_handings hop (Op.mem_handed hv hsend))

/-- The largest view is above the start and above what every block makes of it. -/
theorem solves_largest (hinitial : Regions.entry f = .ok initial)
    (hreached : ∀ {n}, f.Reaches n → ∃ i b, f.At n i b) :
    f.Solves kinds initial fun _ => f.largest where
  lawful _ _ := View.lawful_full _ _
  start := by
    obtain ⟨x, hx, -, hleast⟩ := entry_spec f
    obtain rfl := Except.ok.inj (hinitial.symm.trans hx)
    apply hleast f.largest (View.lawful_full _ _)
    have hname : ∀ v ∈ f.params, v.sendable = false → v.name ∈ f.regionNames.toFinset :=
      fun v hv hsend => List.mem_toFinset.2 (mem_regionNames (List.mem_append_left _ hv) hsend)
    exact fun v hv w hw hvs hws => ⟨hname v hv hvs, hname w hw hws⟩
  edge := by
    intro p n hp _
    obtain ⟨i, b, hat⟩ := hreached hp
    exact flow_largest_le hat

/-- The rank of a view among those of a function. -/
noncomputable def rank (f : Func) (A : View) : Nat :=
  View.rank f.regionNames.toFinset f.handings.toFinset (fun v => f.regionNames.idxOf v) A

/-- Of every name the rank counts whether it is tracked, whether it is linked to an
    earlier one, and what is noted about it at every operand. -/
theorem rank_le (f : Func) (A : View) :
    f.rank A ≤ 2 * f.regionNames.length + f.regionNames.length * f.operandCount := by
  have hnames := List.toFinset_card_le f.regionNames
  have hnotes := List.toFinset_card_le f.handings
  rw [length_handings] at hnotes
  calc f.rank A ≤ 2 * f.regionNames.toFinset.card +
        f.regionNames.toFinset.card * f.handings.toFinset.card := View.rank_le _ _ _ A
    _ ≤ 2 * f.regionNames.length + f.regionNames.length * f.operandCount :=
      Nat.add_le_add (Nat.mul_le_mul_left 2 hnames) (Nat.mul_le_mul hnames hnotes)

/-- A view that grows ranks higher, as long as it stays within the names and sites of
    the function. -/
theorem rank_lt {A B : View}
    (hA : A.Within f.regionNames.toFinset f.handings.toFinset)
    (hB : B.Within f.regionNames.toFinset f.handings.toFinset) (h : A ≤ B) (hne : A ≠ B) :
    f.rank A < f.rank B := by
  refine View.rank_lt hA hB ?_ h hne
  exact fun a ha b _ => (List.idxOf_inj (List.mem_toFinset.1 ha)).1

-- ============================================================================
-- Entries have ranks
-- ============================================================================

/-- What makes the loop stop: its states are below the largest view, and every
    site has a value. -/
structure Limited (f : Func) (c : Classifier σ) (kinds : Op → Crossing) (P : Site → Prop)
    (initial : Regions) : Prop where
  regular : f.Regular c kinds P initial
  largest : f.Solves kinds initial fun _ => f.largest
  valued : ∀ x, P x → x.values ≠ []

/-- The states of an accepted function lie below the largest view, and every site
    hands over a value. -/
theorem limited_of_validate (hvalid : f.validate = .ok ()) (hc : c.Steady) (memory : σ)
    (hinitial : Regions.entry f = .ok initial) :
    f.Limited c (fun op => (c.crossing memory f op).1)
      (fun x => f.Stamped c x ∧ x.values ≠ []) initial := by
  have hreg := regular_of_validate hvalid hc memory hinitial
  refine ⟨⟨?_, ?_, hreg.answers, ?_, ?_, hreg.reached⟩, solves_largest hinitial hreg.reached,
    fun _ hx => hx.2⟩
  · intro x y hx hy hkey
    refine ⟨hreg.closed x y hx.1 hy.1 hkey, ?_⟩
    obtain ⟨w, hw⟩ := List.exists_mem_of_ne_nil _ hx.2
    exact List.ne_nil_of_mem ((Site.mem_values_merge x y w).2 (.inl hw))
  · exact fun x y hx hy => hreg.coherent x y hx.1 hy.1
  · intro n i b hat j op hop call hcall hkind values types hne hdrawn htypes
    exact ⟨hreg.makes hat j op hop call hcall hkind values types hne hdrawn htypes, hne⟩
  · obtain ⟨x, hx, hwf, -⟩ := entry_spec f
    obtain rfl := Except.ok.inj (hinitial.symm.trans hx)
    exact hwf _

/-- Every point that is noted about a region comes with a value. -/
theorem filled_view {s : Regions} (hs : s.WellFormed P) (hP : ∀ x, P x → x.values ≠ [])
    (v : Name) (k : Int × Int) :
    s.view.noted v k none ↔ ∃ w, s.view.noted v k (some w) := by
  simp only [Regions.view_noted hs]
  refine ⟨?_, ?_⟩
  · rintro ⟨r, hr, hn⟩
    obtain ⟨rec, hrec, x, hx, hkey, -⟩ := (Regions.notes_recordAt s r k none).1 hn
    obtain ⟨w, hw⟩ := List.exists_mem_of_ne_nil _ (hP x ((hs.records r rec hrec).2.sites x hx))
    refine ⟨w, r, hr, (Regions.notes_recordAt s r k (some w)).2 ⟨rec, hrec, x, hx, hkey, ?_⟩⟩
    intro w' hw'
    rw [← Option.some.inj hw']
    exact hw
  · rintro ⟨w, r, hr, x, hx, hkey, -⟩
    exact ⟨r, hr, x, hx, hkey, by simp⟩

section Payment

variable {p : Progress σ} {pending : List Name} {s : Regions}

/-- Every entry of a run stays within the names and sites of the function. -/
theorem Invariant.within (hlim : f.Limited c kinds P initial)
    (h : Invariant f kinds P initial pending p) (hs : p.entries.get? n = some s) :
    s.view.Within f.regionNames.toFinset f.handings.toFinset where
  lawful := Regions.lawful_view (h.entries hs).1
  le := h.least hlim.largest hs
  filled := filled_view (h.entries hs).1 hlim.valued

-- ============================================================================
-- Every evaluation is paid for
-- ============================================================================

/-- The evaluations made and the blocks queued are at most the ranks of the
    entries, with one more for each entry. -/
def Paid (f : Func) (p : Progress σ) : Prop :=
  p.evaluations + p.queue.length ≤ p.entries.total fun s => f.rank s.view + 1

theorem length_enqueue_le (queue : List Name) (n : Name) :
    (enqueue queue n).length ≤ queue.length + 1 := by
  unfold enqueue
  split
  · omega
  · simp

/-- A move pays for the block that it puts into the queue with the rank that an entry
    gains. -/
theorem Paid.move (hlim : f.Limited c kinds P initial) {pending' : List Name} {p' : Progress σ}
    (hinv : Invariant f kinds P initial pending p)
    (hm : Move f kinds P initial (pending, p) (pending', p')) (h : f.Paid p) : f.Paid p' := by
  have hinv' := hinv.move hm
  cases hm with
  | take hn hat hs he hview =>
    -- one more evaluation, one block less in the queue
    have hlen := List.length_erase_of_mem hn
    have hpos := List.length_pos_of_mem hn
    unfold Paid at h ⊢
    simp only
    omega
  | idle _ => exact h
  | keep _ _ => exact h
  | @set _ n rest s hs hin hb hleast hne =>
    have hlen := length_enqueue_le p.queue n
    have htotal := Table.total_insert (fun s => f.rank s.view + 1) p.entries n s
    unfold Paid at h ⊢
    simp only
    cases hget : p.entries.get? n with
    | none =>
      rw [hget] at htotal
      simp only [Option.map_none, Option.getD_none] at htotal
      omega
    | some t =>
      -- the entry has grown, and so has its rank
      have hle : t.view ≤ s.view := hinv.below hget s.view (Regions.lawful_view hs) hb
      have hs' : (p.entries.insert n s).get? n = some s := Table.get?_insert_self _ _ _
      have hlt : f.rank t.view < f.rank s.view :=
        rank_lt (hinv.within hlim hget) (hinv'.within hlim hs') hle (hne t hget)
      rw [hget] at htotal
      simp only [Option.map_some, Option.getD_some] at htotal
      omega

/-- Any number of moves is paid for. -/
theorem Paid.moves (hlim : f.Limited c kinds P initial) {pending' : List Name} {p' : Progress σ}
    (hinv : Invariant f kinds P initial pending p)
    (hm : ReflTransGen (Move f kinds P initial) (pending, p) (pending', p')) (h : f.Paid p) :
    f.Paid p' := by
  have hpair : ∀ x : List Name × Progress σ,
      ReflTransGen (Move f kinds P initial) (pending, p) x → f.Paid x.2 := by
    intro x hx
    induction hx with
    | refl => exact h
    | tail hmoves hstep ih => exact ih.move hlim (hinv.moves hmoves) hstep
  exact hpair (pending', p') hm

theorem paid_start (f : Func) (initial : Regions) (memory : σ) :
    f.Paid (f.startProgress initial memory) := by
  have htotal := Table.total_insert (fun s => f.rank s.view + 1) Table.empty f.entry initial
  unfold Paid
  simp only [startProgress, List.length_singleton]
  simp only [Table.get?_empty, Option.map_none, Option.getD_none] at htotal
  omega

/-- The number of evaluations that ranks can pay for. -/
def evaluationLimit (f : Func) : Nat :=
  f.blocks.size * (2 * f.regionNames.length + f.regionNames.length * f.operandCount + 1)

/-- What is paid for never exceeds the limit. -/
theorem Paid.le_evaluationLimit (hreg : f.Regular c kinds P initial)
    (hinv : Invariant f kinds P initial pending p) (h : f.Paid p) :
    p.evaluations + p.queue.length ≤ f.evaluationLimit := by
  -- the blocks with an entry are blocks of the function
  have hsize : p.entries.values.length ≤ f.blocks.size := by
    have hkeys : p.entries.keys ⊆ f.blocks.keys := by
      intro n hn
      obtain ⟨s, hs⟩ := Option.isSome_iff_exists.1 ((Table.mem_keys_iff _ _).1 hn)
      obtain ⟨i, b, hat⟩ := hreg.reached (hinv.entries hs).2
      exact List.mem_of_getElem? hat.keys
    have hlen := (p.entries.nodup.subperm hkeys).length_le
    rw [Table.keys, List.length_map] at hlen
    rw [Table.values, List.length_map, Table.size]
    simpa using hlen
  have hweight : ∀ x ∈ p.entries.values.map fun s => f.rank s.view + 1,
      x ≤ 2 * f.regionNames.length + f.regionNames.length * f.operandCount + 1 := by
    intro x hx
    obtain ⟨s, -, rfl⟩ := List.mem_map.1 hx
    exact Nat.succ_le_succ (f.rank_le s.view)
  have hsum := List.sum_le_card_nsmul _ _ hweight
  rw [List.length_map, nsmul_eq_mul, Nat.cast_id] at hsum
  exact (h.trans hsum).trans (Nat.mul_le_mul_right _ hsize)

end Payment

end Func

end Sendability
