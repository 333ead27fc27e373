/-
  Regions against a history that forgets nothing.

  A `History` keeps every definition as an instance with a number of its own. A
  name stands for its latest instance, instances are linked one by one, and a
  call that transfers leaves a tag at each instance it hands over. The regions
  keep none of this: a new definition takes its name out of a region, and with
  the last name the region goes. `passSteps_exact` says that nothing is lost or
  invented by that: along any sequence of operations the regions answer what the
  history says about the instances that names stand for.

  Both are compared through views. The step lemma is `view_step`: what an
  operation does to the view of a history is `View.apply`. It needs that a new
  instance has a new number (`Numbered`), so that it is linked to nothing.
-/

import Mathlib.Data.List.ProdSigma
import Mathlib.Logic.Relation
import Sendability.Proofs.DataFlow

namespace Sendability

open Relation (EqvGen)

/-- What a transferring call leaves at an instance that it hands over: its point
    and the names of all it hands over. -/
structure Tag where
  holder : Nat
  point : Point
  values : List Name

/-- The definitions so far, which are numbered, and what was linked and tagged. -/
structure History where
  current : Name → Option Nat
  count : Nat
  links : List (Nat × Nat)
  tags : List Tag

namespace History

-- ============================================================================
-- Operations
-- ============================================================================

/-- No definition yet. -/
def empty : History := ⟨fun _ => none, 0, [], []⟩

/-- Links some instances with each other. -/
def link (h : History) (l : List Nat) : History := { h with links := h.links ++ l.product l }

/-- Makes a new instance the current one of a name. -/
def renew (h : History) (v : Name) : History :=
  { h with current := Function.update h.current v (some h.count), count := h.count + 1 }

/-- Tags some instances. -/
def tag (h : History) (l : List Nat) (point : Point) (values : List Name) : History :=
  { h with tags := h.tags ++ l.map fun i => ⟨i, point, values⟩ }

/-- The non-sendable ones of some values that have an instance. -/
def held (h : History) (vs : List Value) : List Value :=
  vs.filter fun v => !v.sendable && (h.current v.name).isSome

/-- The current instances of the non-sendable ones of some values. -/
def instances (h : History) (vs : List Value) : List Nat :=
  (h.held vs).filterMap fun v => h.current v.name

/-- Links the instances of some values; a non-sendable `dest` gets a new one that
    is linked to them. -/
def build (h : History) (dest : Option Value) (parts : List Value) : History :=
  let l := h.instances parts
  match dest with
  | none => h.link l
  | some d => if d.sendable then h.link l else ((h.link l).renew d.name).link (h.count :: l)

/-- The history after an operation; `kind` tells how a call crosses. -/
def step (h : History) (kind : Crossing) (point : Point) : Op → History
  | .init dest args _ => h.build (some dest) args
  | .load dest base _ _ => h.build (some dest) [base]
  | .copy dest src _ => h.build (some dest) [src]
  | .store base _ value _ => h.build none [base, value]
  | .closure dest captures _ => h.build (some dest) captures
  | .call c =>
    let after := h.build c.dest c.operands
    if kind.transfers then
      after.tag (h.instances c.operands) point ((h.held c.operands).map Value.name)
    else after
  | .use .. => h

/-- The history at the entry of a function: the instances of the non-sendable
    parameters are linked. -/
def start (f : Func) : History :=
  let h := (f.params.filter fun p => !p.sendable).foldl (fun h p => h.renew p.name) empty
  h.link (List.range h.count)

/-- The history after some operations. -/
def run (kinds : Op → Crossing) : History → List (Op × Point) → History
  | h, [] => h
  | h, (op, point) :: rest => run kinds (h.step (kinds op) point op) rest

/-- There is a chain of links between two instances. -/
def Connected (h : History) : Nat → Nat → Prop := EqvGen fun i j => (i, j) ∈ h.links

/-- The regions answer what the history says: a name is tracked if it has an
    instance, names share a region if their instances are connected, and the
    sites of a region are the points of the tags that are connected to it, with
    the values of these tags. -/
structure Describes (h : History) (s : Regions) : Prop where
  tracked : ∀ v, s.isTracked v = (h.current v).isSome
  linked : ∀ {a b i j}, h.current a = some i → h.current b = some j →
    ∃ answer t, s.sameRegion a b = .ok (answer, t) ∧ (answer = true ↔ h.Connected i j)
  transferred : ∀ {v i}, h.current v = some i → ∃ answer t, s.isTransferred v = .ok (answer, t) ∧
    (answer = true ↔ ∃ g ∈ h.tags, h.Connected i g.holder)
  sites : ∀ {v i}, h.current v = some i → ∃ sites t, s.sitesFor v = .ok (sites, t) ∧
    (sites.map fun x => x.point.key).Nodup ∧
    (∀ k, (∃ x ∈ sites, x.point.key = k) ↔
      ∃ g ∈ h.tags, h.Connected i g.holder ∧ g.point.key = k) ∧
    ∀ x ∈ sites, ∀ w, w ∈ x.values ↔
      ∃ g ∈ h.tags, h.Connected i g.holder ∧ g.point.key = x.point.key ∧ w ∈ g.values

-- ============================================================================
-- Connections
-- ============================================================================

variable {h : History} {S : Set Name} {l : List Nat} {i j : Nat} {v : Name}

theorem Connected.symm (hij : h.Connected i j) : h.Connected j i := EqvGen.symm _ _ hij

theorem Connected.trans {k : Nat} (hij : h.Connected i j) (hjk : h.Connected j k) :
    h.Connected i k :=
  EqvGen.trans _ _ _ hij hjk

theorem connected_refl (h : History) (i : Nat) : h.Connected i i := EqvGen.refl i

/-- An instance is connected to one of `l`. -/
def Near (h : History) (l : List Nat) (i : Nat) : Prop := ∃ a ∈ l, h.Connected i a

/-- Connected instances are near the same ones. -/
theorem Near.congr (hij : h.Connected i j) (hj : h.Near l j) : h.Near l i := by
  obtain ⟨a, ha, hja⟩ := hj
  exact ⟨a, ha, hij.trans hja⟩

/-- Linking some instances makes one class of all that was connected to them. -/
theorem connected_link (h : History) (l : List Nat) (i j : Nat) :
    (h.link l).Connected i j ↔ h.Connected i j ∨ (h.Near l i ∧ h.Near l j) := by
  refine ⟨?_, ?_⟩
  · intro hij
    induction hij with
    | rel i j hij =>
      rcases List.mem_append.1 hij with hij | hij
      · exact .inl (EqvGen.rel i j hij)
      · obtain ⟨hi, hj⟩ := List.pair_mem_product.1 hij
        exact .inr ⟨⟨i, hi, h.connected_refl i⟩, ⟨j, hj, h.connected_refl j⟩⟩
    | refl i => exact .inl (h.connected_refl i)
    | symm i j _ ih => exact ih.imp Connected.symm And.symm
    | trans i j k _ _ ih ih' =>
      rcases ih with hij | ⟨hi, hj⟩
      · exact ih'.imp hij.trans fun hjk => ⟨hjk.1.congr hij, hjk.2⟩
      · rcases ih' with hjk | ⟨-, hk⟩
        · exact .inr ⟨hi, hj.congr hjk.symm⟩
        · exact .inr ⟨hi, hk⟩
  · have hold : ∀ {i j}, h.Connected i j → (h.link l).Connected i j := by
      intro i j hij
      exact EqvGen.mono (fun a b hab => List.mem_append_left _ hab) i j hij
    rintro (hij | ⟨⟨a, ha, hia⟩, ⟨b, hb, hjb⟩⟩)
    · exact hold hij
    · have hab : (h.link l).Connected a b :=
        EqvGen.rel a b (List.mem_append_right _ (List.pair_mem_product.2 ⟨ha, hb⟩))
      exact (hold hia).trans (hab.trans (hold hjb).symm)

theorem connected_link_of_mem (h : History) (hi : i ∈ l) (hj : j ∈ l) :
    (h.link l).Connected i j :=
  (connected_link h l i j).2
    (.inr ⟨⟨i, hi, h.connected_refl i⟩, ⟨j, hj, h.connected_refl j⟩⟩)

/-- Every instance that is spoken of has a number below `count`. -/
structure Numbered (h : History) : Prop where
  current : ∀ {v i}, h.current v = some i → i < h.count
  links : ∀ {p}, p ∈ h.links → p.1 < h.count ∧ p.2 < h.count
  tags : ∀ {g}, g ∈ h.tags → g.holder < h.count

/-- Only instances that exist are connected to others. -/
theorem Numbered.connected (hn : h.Numbered) (hij : h.Connected i j) :
    i = j ∨ (i < h.count ∧ j < h.count) := by
  induction hij with
  | rel i j hij => exact .inr (hn.links hij)
  | refl i => exact .inl rfl
  | symm i j _ ih => omega
  | trans i j k _ _ ih ih' => omega

theorem Numbered.link (hn : h.Numbered) (hl : ∀ i ∈ l, i < h.count) : (h.link l).Numbered where
  current := hn.current
  links := by
    intro p hp
    rcases List.mem_append.1 hp with hp | hp
    · exact hn.links hp
    · obtain ⟨h1, h2⟩ := List.mem_product.1 hp
      exact ⟨hl _ h1, hl _ h2⟩
  tags := hn.tags

/-- A new instance is the current one of its name. -/
theorem current_renew (h : History) (v w : Name) :
    (h.renew v).current w = if w = v then some h.count else h.current w := by
  simp only [renew, Function.update_apply]

theorem Numbered.renew (hn : h.Numbered) (v : Name) : (h.renew v).Numbered where
  current := by
    intro w i hi
    have hi' := hi
    rw [current_renew] at hi'
    show i < h.count + 1
    split at hi'
    · obtain rfl := Option.some.inj hi'
      exact Nat.lt_succ_self _
    · exact Nat.lt_succ_of_lt (hn.current hi')
  links := by
    intro p hp
    obtain ⟨h1, h2⟩ := hn.links hp
    exact ⟨Nat.lt_succ_of_lt h1, Nat.lt_succ_of_lt h2⟩
  tags := fun hg => Nat.lt_succ_of_lt (hn.tags hg)

theorem Numbered.tag (hn : h.Numbered) (hl : ∀ i ∈ l, i < h.count) (point : Point)
    (values : List Name) : (h.tag l point values).Numbered where
  current := hn.current
  links := hn.links
  tags := by
    intro g hg
    rcases List.mem_append.1 hg with hg | hg
    · exact hn.tags hg
    · obtain ⟨i, hi, rfl⟩ := List.mem_map.1 hg
      exact hl i hi

-- ============================================================================
-- The view of a history
-- ============================================================================

/-- What a history says about the names. -/
def view (h : History) : View where
  tracked v := ∃ i, h.current v = some i
  linked a b := ∃ i j, h.current a = some i ∧ h.current b = some j ∧ h.Connected i j
  noted v k o := ∃ i, h.current v = some i ∧
    ∃ g ∈ h.tags, h.Connected i g.holder ∧ g.point.key = k ∧ ∀ w ∈ o, w ∈ g.values

/-- Whatever happened, the view is lawful. -/
theorem lawful_view (h : History) : h.view.Lawful where
  refl := by
    rintro v ⟨i, hi⟩
    exact ⟨i, i, hi, hi, h.connected_refl i⟩
  tracked := by
    rintro a b ⟨i, -, hi, -⟩
    exact ⟨i, hi⟩
  symm := by
    rintro a b ⟨i, j, hi, hj, hij⟩
    exact ⟨j, i, hj, hi, hij.symm⟩
  trans := by
    rintro a b c ⟨i, j, hi, hj, hij⟩ ⟨j', k, hj', hk, hjk⟩
    obtain rfl := Option.some.inj (hj.symm.trans hj')
    exact ⟨i, k, hi, hk, hij.trans hjk⟩
  noted_tracked := by
    rintro v k o ⟨i, hi, -⟩
    exact ⟨i, hi⟩
  noted_congr := by
    rintro a b k o ⟨i, j, hi, hj, hij⟩ ⟨i', hi', g, hg, hig, hrest⟩
    obtain rfl := Option.some.inj (hi.symm.trans hi')
    exact ⟨j, hj, g, hg, hij.symm.trans hig, hrest⟩

/-- The instances of `l` are those that the names of `S` stand for. -/
def Stand (h : History) (l : List Nat) (S : Set Name) : Prop :=
  ∀ i, i ∈ l ↔ ∃ v ∈ S, h.current v = some i

/-- An instance is near others when its name meets theirs. -/
theorem near_iff_meets (hl : h.Stand l S) (hi : h.current v = some i) :
    h.Near l i ↔ h.view.Meets S v := by
  refine ⟨?_, ?_⟩
  · rintro ⟨j, hj, hij⟩
    obtain ⟨w, hw, hcur⟩ := (hl j).1 hj
    exact ⟨w, hw, i, j, hi, hcur, hij⟩
  · rintro ⟨w, hw, i', j, hi', hj, hij⟩
    obtain rfl := Option.some.inj (hi.symm.trans hi')
    exact ⟨j, (hl j).2 ⟨w, hw, hj⟩, hij⟩

/-- Linking the instances of some names unites their regions. -/
theorem view_link (hl : h.Stand l S) : (h.link l).view = h.view.unite S := by
  refine View.eq_of_iff (fun _ => Iff.rfl) ?_ ?_
  · intro a b
    refine ⟨?_, ?_⟩
    · rintro ⟨i, j, hi, hj, hij⟩
      rcases (connected_link h l i j).1 hij with hij | ⟨hni, hnj⟩
      · exact .inl ⟨i, j, hi, hj, hij⟩
      · exact .inr ⟨(near_iff_meets hl hi).1 hni, (near_iff_meets hl hj).1 hnj⟩
    · rintro (⟨i, j, hi, hj, hij⟩ | ⟨ha, hb⟩)
      · exact ⟨i, j, hi, hj, (connected_link h l i j).2 (.inl hij)⟩
      · obtain ⟨i, hi⟩ := ha.tracked h.lawful_view
        obtain ⟨j, hj⟩ := hb.tracked h.lawful_view
        exact ⟨i, j, hi, hj, (connected_link h l i j).2
          (.inr ⟨(near_iff_meets hl hi).2 ha, (near_iff_meets hl hj).2 hb⟩)⟩
  · intro v k o
    refine ⟨?_, ?_⟩
    · rintro ⟨i, hi, g, hg, hig, hrest⟩
      rcases (connected_link h l i g.holder).1 hig with hig | ⟨hni, j, hj, hgj⟩
      · exact .inl ⟨i, hi, g, hg, hig, hrest⟩
      · -- the tag is noted about the name that stands for the linked instance
        obtain ⟨w, hw, hcur⟩ := (hl j).1 hj
        exact .inr ⟨(near_iff_meets hl hi).1 hni, w, hw, j, hcur, g, hg, hgj.symm, hrest⟩
    · rintro (⟨i, hi, g, hg, hig, hrest⟩ | ⟨hv, w, hw, j, hj, g, hg, hjg, hrest⟩)
      · exact ⟨i, hi, g, hg, (connected_link h l i _).2 (.inl hig), hrest⟩
      · obtain ⟨i, hi⟩ := hv.tracked h.lawful_view
        have hnear : h.Near l g.holder := ⟨j, (hl j).2 ⟨w, hw, hj⟩, hjg.symm⟩
        exact ⟨i, hi, g, hg, (connected_link h l i _).2
          (.inr ⟨(near_iff_meets hl hi).2 hv, hnear⟩), hrest⟩

/-- A new instance moves its name into a region of its own. -/
theorem view_renew (hn : h.Numbered) (v : Name) : (h.renew v).view = h.view.redefine v := by
  have hself : ∀ {w i}, (h.renew v).current w = some i → w = v → i = h.count := by
    rintro w i hi rfl
    rw [current_renew, if_pos rfl] at hi
    exact (Option.some.inj hi).symm
  have hother : ∀ {w}, w ≠ v → (h.renew v).current w = h.current w := by
    intro w hw
    rw [current_renew, if_neg hw]
  have hnew : (h.renew v).current v = some h.count := by
    rw [current_renew, if_pos rfl]
  refine View.eq_of_iff ?_ ?_ ?_
  · intro w
    by_cases hw : w = v
    · exact ⟨fun _ => .inr hw, fun _ => ⟨h.count, hw ▸ hnew⟩⟩
    · refine ⟨?_, ?_⟩
      · rintro ⟨i, hi⟩
        exact .inl ⟨i, (hother hw).symm.trans hi⟩
      · rintro (⟨i, hi⟩ | hv)
        · exact ⟨i, (hother hw).trans hi⟩
        · exact absurd hv hw
  · intro a b
    refine ⟨?_, ?_⟩
    · rintro ⟨i, j, hi, hj, hij⟩
      have hcases := hn.connected hij
      by_cases ha : a = v
      · by_cases hb : b = v
        · exact .inl ⟨ha, hb⟩
        · have hci := hself hi ha
          rw [hother hb] at hj
          have hcj := hn.current hj
          omega
      · rw [hother ha] at hi
        by_cases hb : b = v
        · have hci := hn.current hi
          have hcj := hself hj hb
          omega
        · rw [hother hb] at hj
          exact .inr ⟨ha, hb, i, j, hi, hj, hij⟩
    · rintro (⟨rfl, rfl⟩ | ⟨ha, hb, i, j, hi, hj, hij⟩)
      · exact ⟨h.count, h.count, hnew, hnew, h.connected_refl _⟩
      · exact ⟨i, j, (hother ha).trans hi, (hother hb).trans hj, hij⟩
  · intro w k o
    refine ⟨?_, ?_⟩
    · rintro ⟨i, hi, g, hg, hig, hrest⟩
      by_cases hw : w = v
      · have hci := hself hi hw
        have hcg := hn.tags hg
        have hcases := hn.connected hig
        omega
      · exact ⟨hw, i, (hother hw).symm.trans hi, g, hg, hig, hrest⟩
    · rintro ⟨hw, i, hi, hrest⟩
      exact ⟨i, (hother hw).trans hi, hrest⟩

/-- Names may come to stand for other instances, as long as these are connected to
    the ones they stood for. -/
theorem view_eq_of_moved {after : History} (hn : h.Numbered) (htags : after.tags = h.tags)
    (hold : ∀ {a b}, a < h.count → b < h.count → (after.Connected a b ↔ h.Connected a b))
    (hmoved : ∀ {w x}, h.current w = some x →
      ∃ y, after.current w = some y ∧ after.Connected x y)
    (hback : ∀ {w y}, after.current w = some y →
      ∃ x, h.current w = some x ∧ after.Connected x y) : after.view = h.view := by
  refine View.eq_of_iff ?_ ?_ ?_
  · intro w
    refine ⟨?_, ?_⟩
    · rintro ⟨y, hy⟩
      obtain ⟨x, hx, -⟩ := hback hy
      exact ⟨x, hx⟩
    · rintro ⟨x, hx⟩
      obtain ⟨y, hy, -⟩ := hmoved hx
      exact ⟨y, hy⟩
  · intro a b
    refine ⟨?_, ?_⟩
    · rintro ⟨y, z, hy, hz, hyz⟩
      obtain ⟨x, hx, hxy⟩ := hback hy
      obtain ⟨u, hu, huz⟩ := hback hz
      exact ⟨x, u, hx, hu,
        (hold (hn.current hx) (hn.current hu)).1 (hxy.trans (hyz.trans huz.symm))⟩
    · rintro ⟨x, u, hx, hu, hxu⟩
      obtain ⟨y, hy, hxy⟩ := hmoved hx
      obtain ⟨z, hz, huz⟩ := hmoved hu
      have hxu' := (hold (hn.current hx) (hn.current hu)).2 hxu
      exact ⟨y, z, hy, hz, hxy.symm.trans (hxu'.trans huz)⟩
  · intro w k o
    refine ⟨?_, ?_⟩
    · rintro ⟨y, hy, g, hg, hyg, hrest⟩
      rw [htags] at hg
      obtain ⟨x, hx, hxy⟩ := hback hy
      exact ⟨x, hx, g, hg, (hold (hn.current hx) (hn.tags hg)).1 (hxy.trans hyg), hrest⟩
    · rintro ⟨x, hx, g, hg, hxg, hrest⟩
      obtain ⟨y, hy, hxy⟩ := hmoved hx
      have hxg' := (hold (hn.current hx) (hn.tags hg)).2 hxg
      exact ⟨y, hy, g, htags ▸ hg, hxy.symm.trans hxg', hrest⟩

/-- A new instance that is linked to the old one of its name, among others that
    are connected, leaves the name where it was. -/
theorem view_renew_link (hn : h.Numbered) (hl : ∀ a ∈ l, ∀ b ∈ l, h.Connected a b)
    (hi : h.current v = some i) (hmem : i ∈ l) :
    ((h.renew v).link (h.count :: l)).view = h.view := by
  have hself : ((h.renew v).link (h.count :: l)).current v = some h.count :=
    (current_renew h v v).trans (if_pos rfl)
  have hother : ∀ {w}, w ≠ v → ((h.renew v).link (h.count :: l)).current w = h.current w :=
    fun hw => (current_renew h v _).trans (if_neg hw)
  have hnew : ((h.renew v).link (h.count :: l)).Connected i h.count :=
    connected_link_of_mem _ (List.mem_cons_of_mem _ hmem) List.mem_cons_self
  -- an old instance is near the new links only if it was connected to `i`
  have hnear : ∀ {a}, a < h.count → (h.renew v).Near (h.count :: l) a → h.Connected a i := by
    rintro a ha ⟨b, hb, hab⟩
    rcases List.mem_cons.1 hb with rfl | hb
    · have hcases := hn.connected hab
      omega
    · exact Connected.trans hab (hl b hb i hmem)
  refine view_eq_of_moved hn rfl ?_ ?_ ?_
  · intro a b ha hb
    rw [connected_link]
    refine ⟨?_, .inl⟩
    rintro (hab | ⟨hna, hnb⟩)
    · exact hab
    · exact (hnear ha hna).trans (hnear hb hnb).symm
  · intro w x hx
    by_cases hw : w = v
    · subst hw
      obtain rfl := Option.some.inj (hi.symm.trans hx)
      exact ⟨h.count, hself, hnew⟩
    · exact ⟨x, (hother hw).trans hx, connected_refl _ x⟩
  · intro w y hy
    by_cases hw : w = v
    · subst hw
      obtain rfl := Option.some.inj (hself.symm.trans hy)
      exact ⟨i, hi, hnew⟩
    · exact ⟨y, (hother hw).symm.trans hy, connected_refl _ y⟩

-- ============================================================================
-- Operations on views
-- ============================================================================

theorem mem_held (h : History) (vs : List Value) (n : Name) :
    n ∈ (h.held vs).map Value.name ↔ n ∈ h.view.among vs := by
  simp only [held, List.mem_map, List.mem_filter, Bool.and_eq_true, Bool.not_eq_true',
    Option.isSome_iff_exists, View.among, Set.mem_ofPred_eq]
  refine ⟨?_, ?_⟩
  · rintro ⟨v, ⟨hv, hsend, hcur⟩, rfl⟩
    exact ⟨hcur, v, hv, hsend, rfl⟩
  · rintro ⟨hcur, v, hv, hsend, rfl⟩
    exact ⟨v, ⟨hv, hsend, hcur⟩, rfl⟩

theorem stand_instances (h : History) (vs : List Value) :
    h.Stand (h.instances vs) (h.view.among vs) := by
  intro i
  simp only [← mem_held, instances, List.mem_filterMap, List.mem_map]
  refine ⟨?_, ?_⟩
  · rintro ⟨v, hv, hcur⟩
    exact ⟨v.name, ⟨v, hv, rfl⟩, hcur⟩
  · rintro ⟨_, ⟨v, hv, rfl⟩, hcur⟩
    exact ⟨v, hv, hcur⟩

theorem Numbered.instances (hn : h.Numbered) (vs : List Value) :
    ∀ i ∈ h.instances vs, i < h.count := by
  intro i hi
  obtain ⟨v, -, hcur⟩ := (stand_instances h vs i).1 hi
  exact hn.current hcur

theorem Numbered.build (hn : h.Numbered) (dest : Option Value) (parts : List Value) :
    (h.build dest parts).Numbered := by
  have hl := hn.instances parts
  cases dest with
  | none => exact hn.link hl
  | some d =>
    simp only [History.build]
    split
    · exact hn.link hl
    · refine ((hn.link hl).renew d.name).link ?_
      intro i hi
      rcases List.mem_cons.1 hi with rfl | hi
      · exact Nat.lt_succ_self h.count
      · exact Nat.lt_succ_of_lt (hl i hi)

theorem count_le_build (h : History) (dest : Option Value) (parts : List Value) :
    h.count ≤ (h.build dest parts).count := by
  cases dest with
  | none => exact Nat.le_refl _
  | some d =>
    simp only [build]
    split
    · exact Nat.le_refl _
    · exact Nat.le_succ _

/-- Every operation numbers its new instances on. -/
theorem Numbered.step (hn : h.Numbered) (kind : Crossing) (point : Point) (op : Op) :
    (h.step kind point op).Numbered := by
  cases op with
  | init dest args loc => exact hn.build (some dest) args
  | load dest base field loc => exact hn.build (some dest) [base]
  | copy dest src loc => exact hn.build (some dest) [src]
  | store base field value loc => exact hn.build none [base, value]
  | closure dest captures loc => exact hn.build (some dest) captures
  | use value kind loc => exact hn
  | call c =>
    simp only [History.step]
    split
    · refine (hn.build c.dest c.operands).tag ?_ _ _
      intro i hi
      exact Nat.lt_of_lt_of_le (hn.instances _ i hi) (count_le_build h _ _)
    · exact hn.build c.dest c.operands

/-- Building a value does to the view what it says. -/
theorem view_build (hn : h.Numbered) (dest : Option Value) (parts : List Value) :
    (h.build dest parts).view = h.view.build dest parts := by
  have hstand := stand_instances h parts
  have hlink := view_link hstand
  cases dest with
  | none => exact hlink
  | some d =>
    simp only [build, View.build, View.define]
    split
    · exact hlink
    · have hn' := hn.link (hn.instances parts)
      split
      · -- the name is built from itself and stays where it was
        rename_i hd
        obtain ⟨i, hi⟩ := hd.1
        have hmem : i ∈ h.instances parts := (hstand i).2 ⟨d.name, hd, hi⟩
        have hself := view_renew_link hn' (fun a ha b hb => connected_link_of_mem h ha hb) hi hmem
        rw [Set.insert_eq_of_mem hd, ← hlink]
        refine hself.trans (View.unite_eq_self (lawful_view _) ?_).symm
        rintro a ha b hb
        obtain ⟨x, hx⟩ := ha.1
        obtain ⟨y, hy⟩ := hb.1
        exact ⟨x, y, hx, hy, connected_link_of_mem h ((hstand x).2 ⟨a, ha, hx⟩)
          ((hstand y).2 ⟨b, hb, hy⟩)⟩
      · rename_i hd
        have hinsert : ((h.link (h.instances parts)).renew d.name).Stand
            (h.count :: h.instances parts) (insert d.name (h.view.among parts)) := by
          intro i
          simp only [List.mem_cons, Set.mem_insert_iff, exists_eq_or_imp, hstand i,
            current_renew, if_true, Option.some.injEq]
          refine or_congr eq_comm (exists_congr fun v => and_congr_right fun hv => ?_)
          have hvd : v ≠ d.name := by
            rintro rfl
            exact hd hv
          rw [if_neg hvd]
          rfl
        rw [view_link hinsert, view_renew hn', hlink]

/-- The instance of a name that a definition is built from is connected to the one
    that the name stands for afterwards. -/
theorem exists_current_build (h : History) (dest : Option Value) {parts : List Value}
    (hv : v ∈ h.view.among parts) (hi : h.current v = some i) :
    ∃ j, (h.build dest parts).current v = some j ∧ (h.build dest parts).Connected i j := by
  have hmem : i ∈ h.instances parts := (stand_instances h parts i).2 ⟨v, hv, hi⟩
  cases dest with
  | none => exact ⟨i, hi, connected_refl _ i⟩
  | some d =>
    simp only [build]
    split
    · exact ⟨i, hi, connected_refl _ i⟩
    · by_cases hvd : v = d.name
      · refine ⟨h.count, ?_, connected_link_of_mem _ (List.mem_cons_of_mem _ hmem)
          List.mem_cons_self⟩
        exact (current_renew _ _ _).trans (if_pos hvd)
      · refine ⟨i, ?_, connected_refl _ i⟩
        exact ((current_renew _ _ _).trans (if_neg hvd)).trans hi

/-- Tagging instances notes the tag about the names that are connected to them. -/
theorem view_tag (hl : ∀ a, h.view.Meets S a ↔ ∃ i, h.current a = some i ∧ h.Near l i)
    (point : Point) {values : List Name} (hvalues : ∀ w, w ∈ values ↔ w ∈ S) :
    (h.tag l point values).view = h.view.annotate S (View.handing point.key S) := by
  refine View.eq_of_iff (fun _ => Iff.rfl) (fun _ _ => Iff.rfl) ?_
  intro a k o
  refine ⟨?_, ?_⟩
  · rintro ⟨i, hi, g, hg, hig, hk, ho⟩
    rcases List.mem_append.1 hg with hg | hg
    · exact .inl ⟨i, hi, g, hg, hig, hk, ho⟩
    · obtain ⟨j, hj, rfl⟩ := List.mem_map.1 hg
      exact .inr ⟨(hl a).2 ⟨i, hi, j, hj, hig⟩, hk.symm, fun w hw => (hvalues w).1 (ho w hw)⟩
  · rintro (⟨i, hi, g, hg, hrest⟩ | ⟨ha, hk, ho⟩)
    · exact ⟨i, hi, g, List.mem_append_left _ hg, hrest⟩
    · obtain ⟨i, hi, j, hj, hij⟩ := (hl a).1 ha
      exact ⟨i, hi, ⟨j, point, values⟩, List.mem_append_right _ (List.mem_map.2 ⟨j, hj, rfl⟩),
        hij, hk.symm, fun w hw => (hvalues w).2 (ho w hw)⟩

/-- An operation does to the view of a history what it does to views. -/
theorem view_step (hn : h.Numbered) (kind : Crossing) (point : Point) (op : Op) :
    (h.step kind point op).view = h.view.apply kind point.key op := by
  cases op with
  | init dest args loc => exact view_build hn (some dest) args
  | load dest base field loc => exact view_build hn (some dest) [base]
  | copy dest src loc => exact view_build hn (some dest) [src]
  | store base field value loc => exact view_build hn none [base, value]
  | closure dest captures loc => exact view_build hn (some dest) captures
  | use value kind loc => rfl
  | call c =>
    simp only [step, View.apply]
    split
    · rw [← view_build hn]
      refine view_tag ?_ point fun w => mem_held h c.operands w
      intro a
      refine ⟨?_, ?_⟩
      · rintro ⟨v, hv, i, j, hi, hj, hij⟩
        obtain ⟨x, hx⟩ := hv.1
        obtain ⟨y, hy, hxy⟩ := exists_current_build h c.dest hv hx
        obtain rfl := Option.some.inj (hj.symm.trans hy)
        exact ⟨i, hi, x, (stand_instances h _ x).2 ⟨v, hv, hx⟩, hij.trans hxy.symm⟩
      · rintro ⟨i, hi, x, hx, hix⟩
        obtain ⟨v, hv, hcur⟩ := (stand_instances h _ x).1 hx
        obtain ⟨y, hy, hxy⟩ := exists_current_build h c.dest hv hcur
        exact ⟨v, hv, i, y, hi, hy, hix.trans hxy⟩
    · exact view_build hn _ _

-- ============================================================================
-- The start
-- ============================================================================

theorem foldl_renew_spec (hn : h.Numbered) (ps : List Value) :
    (ps.foldl (fun h p => h.renew p.name) h).Numbered ∧
      (ps.foldl (fun h p => h.renew p.name) h).tags = h.tags ∧
      ∀ n, (∃ i, (ps.foldl (fun h p => h.renew p.name) h).current n = some i) ↔
        (∃ i, h.current n = some i) ∨ ∃ p ∈ ps, p.name = n := by
  induction ps generalizing h with
  | nil => exact ⟨hn, rfl, by simp⟩
  | cons p ps ih =>
    obtain ⟨hnum, htags, hcur⟩ := ih (hn.renew p.name)
    refine ⟨hnum, htags, ?_⟩
    intro n
    rw [List.foldl_cons, hcur, current_renew]
    by_cases hp : n = p.name
    · simp [hp]
    · simp [hp, Ne.symm hp]

theorem numbered_empty : empty.Numbered where
  current h := nomatch h
  links h := nomatch h
  tags h := nomatch h

/-- The parameters start out connected. -/
theorem start_spec (f : Func) : (start f).Numbered ∧
    (start f).view = View.clique {n | ∃ v ∈ f.params, v.sendable = false ∧ v.name = n} := by
  obtain ⟨hn, htags, hcur⟩ :=
    foldl_renew_spec numbered_empty (f.params.filter fun p => !p.sendable)
  obtain ⟨h, hh⟩ : ∃ h, h = (f.params.filter fun p => !p.sendable).foldl
    (fun h p => h.renew p.name) empty := ⟨_, rfl⟩
  rw [← hh] at hn htags hcur
  have hstart : start f = h.link (List.range h.count) := by rw [hh, start]
  have hparam : ∀ n, (∃ i, h.current n = some i) ↔
      ∃ v ∈ f.params, v.sendable = false ∧ v.name = n := by
    intro n
    rw [hcur]
    simp [empty, and_assoc]
  rw [hstart]
  refine ⟨hn.link fun i hi => List.mem_range.1 hi, View.eq_of_iff hparam ?_ ?_⟩
  · intro a b
    refine ⟨?_, ?_⟩
    · rintro ⟨i, j, hi, hj, -⟩
      exact ⟨(hparam a).1 ⟨i, hi⟩, (hparam b).1 ⟨j, hj⟩⟩
    · rintro ⟨ha, hb⟩
      obtain ⟨i, hi⟩ := (hparam a).2 ha
      obtain ⟨j, hj⟩ := (hparam b).2 hb
      exact ⟨i, j, hi, hj, connected_link_of_mem h (List.mem_range.2 (hn.current hi))
        (List.mem_range.2 (hn.current hj))⟩
  · intro v k o
    refine ⟨?_, False.elim⟩
    rintro ⟨i, -, g, hg, -⟩
    have hg' : g ∈ h.tags := hg
    rw [htags] at hg'
    cases hg'

-- ============================================================================
-- Runs
-- ============================================================================

theorem view_noted_iff (hi : h.current v = some i) (k : Int × Int) (o : Option Name) :
    h.view.noted v k o ↔
      ∃ g ∈ h.tags, h.Connected i g.holder ∧ g.point.key = k ∧ ∀ w ∈ o, w ∈ g.values := by
  refine ⟨?_, fun hg => ⟨i, hi, hg⟩⟩
  rintro ⟨i', hi', hg⟩
  obtain rfl := Option.some.inj (hi.symm.trans hi')
  exact hg

/-- Regions with the view of a history are described by it. -/
theorem describes_of_view {P : Site → Prop} {s : Regions} (hs : s.WellFormed P)
    (hview : s.view = h.view) : h.Describes s := by
  have hmem : ∀ {v i}, h.current v = some i → v ∈ s.names := by
    intro v i hv
    rw [← Regions.view_tracked, hview]
    exact ⟨i, hv⟩
  have hnotes : ∀ {v i r}, h.current v = some i → s.partition.Rep v r → ∀ k o,
      (s.recordAt r).Notes k o ↔
        ∃ g ∈ h.tags, h.Connected i g.holder ∧ g.point.key = k ∧ ∀ w ∈ o, w ∈ g.values := by
    intro v i r hi hr k o
    rw [← view_noted_iff hi, ← hview, Regions.view_noted hs]
    refine ⟨fun hn => ⟨r, hr, hn⟩, ?_⟩
    rintro ⟨r', hr', hn⟩
    exact hr.unique hr' ▸ hn
  refine ⟨?_, ?_, ?_, ?_⟩
  · intro v
    have htracked : s.view.tracked v ↔ h.view.tracked v := by rw [hview]
    rw [Bool.eq_iff_iff, Option.isSome_iff_exists]
    exact htracked
  · intro a b i j hi hj
    obtain ⟨answer, t, hok, hiff⟩ := Regions.sameRegion_spec hs (hmem hi) (hmem hj)
    refine ⟨answer, t, hok, hiff.trans ?_⟩
    rw [hview]
    refine ⟨?_, fun hij => ⟨i, j, hi, hj, hij⟩⟩
    rintro ⟨i', j', hi', hj', hij⟩
    obtain rfl := Option.some.inj (hi.symm.trans hi')
    obtain rfl := Option.some.inj (hj.symm.trans hj')
    exact hij
  · intro v i hi
    obtain ⟨r, t, hok, hr, -⟩ := Regions.isTransferred_spec hs (hmem hi)
    refine ⟨_, t, hok, ?_⟩
    rw [Record.transferred_iff_notes]
    refine ⟨?_, ?_⟩
    · rintro ⟨k, hk⟩
      obtain ⟨g, hg, hig, -⟩ := (hnotes hi hr k none).1 hk
      exact ⟨g, hg, hig⟩
    · rintro ⟨g, hg, hig⟩
      exact ⟨g.point.key, (hnotes hi hr _ none).2 ⟨g, hg, hig, rfl, by simp⟩⟩
  · intro v i hi
    obtain ⟨r, t, hok, hr, -⟩ := Regions.sitesFor_spec hs (hmem hi)
    have hproper := Regions.proper_recordAt hs r
    refine ⟨_, t, hok, hproper.nodup, ?_, ?_⟩
    · intro k
      have hk := hnotes hi hr k none
      simpa [Record.Notes, Site.Notes] using hk
    · intro x hx w
      -- the site is the only one of its point
      have hw : (s.recordAt r).Notes x.point.key (some w) ↔ w ∈ x.values := by
        refine ⟨?_, fun hw => ⟨x, hx, rfl, by simpa using hw⟩⟩
        rintro ⟨y, hy, hkey, hyw⟩
        obtain rfl := hproper.eq_of_key hy hx hkey
        exact hyw w rfl
      rw [← hw, hnotes hi hr]
      simp

end History

namespace Func

variable {σ : Type} {f : Func} {c : Classifier σ} {kinds : Op → Crossing}

/-- Runs over some operations at points of their own, one after the other. -/
def passSteps (f : Func) (c : Classifier σ) (watch : Bool) :
    σ → Regions → List (Op × Point) → Except Untracked (Passage σ)
  | memory, s, [] => .ok ⟨s, [], memory⟩
  | memory, s, (op, point) :: rest => do
    let p ← f.passOp c watch memory s point op
    let q ← f.passSteps c watch p.memory p.regions rest
    return { q with accesses := p.accesses ++ q.accesses }

/-- Regions and a history with one view keep to one view. -/
theorem passSteps_view (hc : c.Answers f kinds) (watch : Bool) (memory : σ) {s : Regions}
    (hs : s.WellFormed fun _ => True) {h : History} (hn : h.Numbered) (hview : s.view = h.view)
    (steps : List (Op × Point)) :
    ∃ r, f.passSteps c watch memory s steps = .ok r ∧ (r.regions.WellFormed fun _ => True) ∧
      r.regions.view = (h.run kinds steps).view := by
  induction steps generalizing memory s h with
  | nil => exact ⟨⟨s, [], memory⟩, rfl, hs, hview⟩
  | cons step rest ih =>
    obtain ⟨op, point⟩ := step
    have hmakes : f.Makes (fun _ => True) (kinds op) point op := fun _ _ _ _ _ _ _ _ => trivial
    obtain ⟨p, hp, hpwf, hpview, -⟩ :=
      passOp_spec (fun _ _ _ _ _ => trivial) hs hc watch memory hmakes
    rw [hview, ← History.view_step hn] at hpview
    obtain ⟨q, hq, hqwf, hqview⟩ := ih p.memory hpwf (hn.step (kinds op) point op) hpview
    refine ⟨{ q with accesses := p.accesses ++ q.accesses }, ?_, hqwf, hqview⟩
    simp only [passSteps, hp, hq, bind, Except.bind, pure, Except.pure]

/-- Along any sequence of operations from the entry of a function, the regions
    are described by the history. -/
theorem passSteps_exact (f : Func) (hc : c.Steady) (watch : Bool) (memory : σ)
    (steps : List (Op × Point)) :
    ∃ initial r, Regions.entry f = .ok initial ∧
      f.passSteps c watch memory initial steps = .ok r ∧
      ((History.start f).run (fun op => (c.crossing memory f op).1) steps).Describes r.regions := by
  obtain ⟨initial, hinitial, hwf, hview⟩ := entry_view f
  obtain ⟨hn, hstart⟩ := History.start_spec f
  obtain ⟨r, hr, hrwf, hrview⟩ := passSteps_view (hc.answers f memory) watch memory (hwf _) hn
    (hview.trans hstart.symm) steps
  exact ⟨initial, r, hinitial, hr, History.describes_of_view hrwf hrview⟩

/-- A value that is sent under one name and then known under another only. -/
def lastingAlias : List (Op × Point) :=
  let box : TypeInfo := ⟨"Box", false⟩
  [(.copy ⟨"y", box⟩ ⟨"x", box⟩ {}, ⟨0, 0, "entry"⟩),
   (.call { callee := "send", args := [⟨"x", box⟩], domain := some "worker" }, ⟨0, 1, "entry"⟩),
   (.init ⟨"x", box⟩ [] {}, ⟨0, 2, "entry"⟩),
   (.copy ⟨"y", box⟩ ⟨"y", box⟩ {}, ⟨0, 3, "entry"⟩)]

theorem lastingAlias_exact : ∃ initial r h, Regions.entry sendingLoop = .ok initial ∧
    sendingLoop.passSteps Classifier.asWritten true () initial lastingAlias = .ok r ∧
    h = (History.start sendingLoop).run
      (fun op => ((Classifier.asWritten : Classifier Unit).crossing () sendingLoop op).1) lastingAlias ∧
    h.Describes r.regions ∧ h.current "x" = some 2 ∧ h.current "y" = some 3 ∧
    h.tags.map Tag.holder = [0] := by
  obtain ⟨initial, r, hinitial, hr, hdescribes⟩ :=
    passSteps_exact sendingLoop asWritten_steady true () lastingAlias
  exact ⟨initial, r, _, hinitial, hr, rfl, hdescribes, by decide +kernel, by decide +kernel,
    by decide +kernel⟩

end Func

end Sendability
