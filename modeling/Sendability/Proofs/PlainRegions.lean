/-
  Regions as a set of classes.

  `PlainRegions` is what regions are without representatives, parents and
  tables: a set of disjoint classes of names, each with a map from program points
  to sites. The changes are stated class by class:

    * `track`     -- a class of its own for a name that is in none
    * `redefine`  -- a name leaves its class, which keeps its other members and
                     its sites, for a class of its own without sites
    * `Unites`    -- some classes become one, and their maps are merged
    * `mark`      -- one class gets one more site
    * `Joins`     -- the classes of two families become connected

  Merging keeps of two sites at a point what they hand over. Of the calls that
  they stand for it keeps one, and classes come in no order: where several are
  merged at once and their sites differ, which call is kept and in which order the
  types are listed is left open (`Merges`).
-/

import Mathlib.Data.Set.Subsingleton
import Mathlib.Logic.Relation
import Sendability.Proofs.RecordLaws

namespace Sendability

-- ============================================================================
-- Sites
-- ============================================================================

/-- A site as it is read: the call that it stands for, the values that it was
    seen to hand over, in no order, and their types. -/
structure PlainSite where
  call : Site
  values : Set Name
  types : List Name

/-- A site without its values and types. -/
def Site.bare (x : Site) : Site := { x with values := [], types := [] }

/-- A site, its values read as a set. -/
def Site.plain (x : Site) : PlainSite := ⟨x.bare, {w | w ∈ x.values}, x.types⟩

/-- The first of two sites with what both hand over; types that are new come
    last. -/
def PlainSite.merge (x y : PlainSite) : PlainSite :=
  ⟨x.call, x.values ∪ y.values, x.types ++ y.types.filter (· ∉ x.types)⟩

theorem PlainSite.merge_self (x : PlainSite) : x.merge x = x := by
  have hnew : x.types.filter (· ∉ x.types) = [] := by
    rw [List.filter_eq_nil_iff]
    intro w hw
    simp [hw]
  rw [merge, hnew, List.append_nil, Set.union_self]

theorem Site.bare_merge (x y : Site) : (x.merge y).bare = x.bare := by
  unfold merge
  split
  · rfl
  · rfl

/-- Sites without spans are merged alike. -/
theorem Site.plain_merge (x y : Site) : (x.merge y).plain = x.plain.merge y.plain := by
  have hvalues : {w | w ∈ (x.merge y).values} = {w | w ∈ x.values} ∪ {w | w ∈ y.values} := by
    ext w
    exact mem_values_merge x y w
  rw [plain, bare_merge, hvalues, types_merge]
  rfl

/-- A map from program points to sites. -/
abbrev SiteMap := Int × Int → Option PlainSite

namespace SiteMap

/-- The map without sites. -/
def empty : SiteMap := fun _ => none

/-- The map with one site. -/
def single (x : Site) : SiteMap := fun k => if x.point.key = k then some x.plain else none

/-- Two maps, merged point by point. -/
def merge (m m' : SiteMap) : SiteMap := fun k => Option.merge PlainSite.merge (m k) (m' k)

end SiteMap

/-- `m` has one site for all those that `E` lists at a point: it stands for the
    call of one of them and hands over what any of them does, and if they are all
    the same it is that site. -/
structure Merges (E : Int × Int → PlainSite → Prop) (m : SiteMap) : Prop where
  domain : ∀ k, (∃ x, m k = some x) ↔ ∃ y, E k y
  call : ∀ k x, m k = some x → ∃ y, E k y ∧ x.call = y.call
  values : ∀ k x, m k = some x → ∀ w, w ∈ x.values ↔ ∃ y, E k y ∧ w ∈ y.values
  types : ∀ k x, m k = some x → ∀ w, w ∈ x.types ↔ ∃ y, E k y ∧ w ∈ y.types
  single : ∀ k x y, m k = some x → (∀ z, E k z → z = y) → x = y

section Merges

variable {E E' : Int × Int → PlainSite → Prop} {m m' : SiteMap}

/-- Only the sites that occur matter for a merge. -/
theorem Merges.congr (h : Merges E m) (hE : ∀ k y, E k y ↔ E' k y) : Merges E' m := by
  obtain rfl : E = E' := by
    funext k y
    exact propext (hE k y)
  exact h

theorem Merges.not_listed (h : Merges E m) {k : Int × Int} (hk : m k = none) (y : PlainSite) :
    ¬ E k y := by
  intro hy
  obtain ⟨x, hx⟩ := (h.domain k).2 ⟨y, hy⟩
  rw [hk] at hx
  cases hx

/-- Where only one map has sites, there is nothing to merge. -/
theorem merges_self (m : SiteMap) : Merges (fun k y => m k = some y) m := by
  have hpart : ∀ (part : PlainSite → Set Name) k x, m k = some x →
      ∀ w, w ∈ part x ↔ ∃ y, m k = some y ∧ w ∈ part y := by
    intro part k x hx w
    rw [hx]
    simp
  exact ⟨fun _ => Iff.rfl, fun k x hx => ⟨x, hx, rfl⟩, hpart PlainSite.values,
    hpart fun x => {w | w ∈ x.types}, fun k x y hx hy => hy x hx⟩

theorem merges_empty : Merges (fun _ _ => False) SiteMap.empty := by
  apply (merges_self SiteMap.empty).congr
  intro k y
  simp [SiteMap.empty]

/-- What is handed over after merging two maps, be it values or types. -/
theorem Merges.mem_merge (h : Merges E m) (h' : Merges E' m') (part : PlainSite → Set Name)
    (hpart : ∀ x y : PlainSite, part (x.merge y) = part x ∪ part y)
    (hE : ∀ k x, m k = some x → ∀ w, w ∈ part x ↔ ∃ y, E k y ∧ w ∈ part y)
    (hE' : ∀ k x, m' k = some x → ∀ w, w ∈ part x ↔ ∃ y, E' k y ∧ w ∈ part y)
    {k : Int × Int} {x : PlainSite} (hx : m.merge m' k = some x) (w : Name) :
    w ∈ part x ↔ ∃ y, (E k y ∨ E' k y) ∧ w ∈ part y := by
  simp only [or_and_right, exists_or]
  rw [SiteMap.merge] at hx
  cases hm : m k with
  | none =>
    have hno : ¬ ∃ y, E k y ∧ w ∈ part y := fun ⟨y, hy, _⟩ => h.not_listed hm y hy
    rw [hm, Option.merge_none_left] at hx
    rw [hE' k x hx w]
    exact ⟨.inr, fun hw => hw.resolve_left hno⟩
  | some y =>
    cases hm' : m' k with
    | none =>
      have hno : ¬ ∃ y, E' k y ∧ w ∈ part y := fun ⟨y, hy, _⟩ => h'.not_listed hm' y hy
      rw [hm, hm', Option.merge_none_right] at hx
      rw [hE k x (hm.trans hx) w]
      exact ⟨.inl, fun hw => hw.resolve_right hno⟩
    | some z =>
      rw [hm, hm'] at hx
      obtain rfl : y.merge z = x := Option.some.inj hx
      rw [hpart, ← hE k y hm w, ← hE' k z hm' w]
      exact Iff.rfl

/-- Merging two maps merges what both list. -/
theorem Merges.merge (h : Merges E m) (h' : Merges E' m') :
    Merges (fun k y => E k y ∨ E' k y) (m.merge m') := by
  have htypes : ∀ x y : PlainSite,
      {w | w ∈ (x.merge y).types} = {w | w ∈ x.types} ∪ {w | w ∈ y.types} := by
    intro x y
    ext w
    exact Site.mem_append_new x.types y.types w
  refine ⟨?_, ?_, fun k x hx => h.mem_merge h' _ (fun _ _ => rfl) h.values h'.values hx,
    fun k x hx => h.mem_merge h' (fun x => {w | w ∈ x.types}) htypes h.types h'.types hx, ?_⟩
  · intro k
    rw [exists_or, ← h.domain k, ← h'.domain k, SiteMap.merge]
    cases m k with
    | none => simp
    | some y =>
      cases m' k with
      | none => simp
      | some z => simp [Option.merge]
  · intro k x hx
    rw [SiteMap.merge] at hx
    cases hm : m k with
    | none =>
      rw [hm, Option.merge_none_left] at hx
      obtain ⟨y, hy, hcall⟩ := h'.call k x hx
      exact ⟨y, .inr hy, hcall⟩
    | some y =>
      -- the first of the two is kept, whatever the second is
      obtain ⟨y', hy', hcall⟩ := h.call k y hm
      refine ⟨y', .inl hy', ?_⟩
      rw [hm] at hx
      cases hm' : m' k with
      | none =>
        rw [hm', Option.merge_none_right] at hx
        rw [← Option.some.inj hx, hcall]
      | some z =>
        rw [hm'] at hx
        rw [← Option.some.inj hx, ← hcall]
        rfl
  · intro k x y hx hy
    rw [SiteMap.merge] at hx
    cases hm : m k with
    | none =>
      rw [hm, Option.merge_none_left] at hx
      exact h'.single k x y hx fun z hz => hy z (.inr hz)
    | some a =>
      have ha : a = y := h.single k a y hm fun z hz => hy z (.inl hz)
      cases hm' : m' k with
      | none =>
        rw [hm, hm', Option.merge_none_right] at hx
        rw [← Option.some.inj hx, ha]
      | some b =>
        have hb : b = y := h'.single k b y hm' fun z hz => hy z (.inr hz)
        rw [hm, hm'] at hx
        obtain rfl : a.merge b = x := Option.some.inj hx
        rw [ha, hb, PlainSite.merge_self]

end Merges

namespace Record

variable {r s : Record} {k : Int × Int}

/-- The sites of a record by their points. -/
def siteMap (r : Record) : SiteMap := fun k =>
  (r.sites.find? fun x => x.point.key = k).map Site.plain

theorem siteMap_empty : empty.siteMap = SiteMap.empty := rfl

theorem eq_empty_of_not_transferred (h : ¬ r.transferred = true) : r = empty := by
  obtain ⟨sites⟩ := r
  have hnil : sites = [] := by
    by_contra hne
    exact h ((transferred_iff _).2 hne)
  rw [hnil]
  rfl

theorem siteMap_singleton (x : Site) : (⟨[x]⟩ : Record).siteMap = SiteMap.single x := by
  funext k
  rw [siteMap, SiteMap.single]
  by_cases hk : x.point.key = k
  · simp [hk]
  · simp [hk]

theorem siteMap_eq (r : Record) (k : Int × Int) : r.siteMap k = (r.at? k).map Site.plain := rfl

/-- A site of a proper record is the one at its point. -/
theorem siteMap_of_mem (hr : r.Proper) {y : Site} (hy : y ∈ r.sites) :
    r.siteMap y.point.key = some y.plain := by
  rw [siteMap_eq, (at?_eq_some_iff hr).2 ⟨hy, rfl⟩]
  rfl

/-- A record maps every point to its one site there. -/
theorem siteMap_eq_some_iff (hr : r.Proper) {x : PlainSite} :
    r.siteMap k = some x ↔ ∃ y ∈ r.sites, y.point.key = k ∧ y.plain = x := by
  rw [siteMap_eq, Option.map_eq_some_iff]
  simp only [at?_eq_some_iff hr, and_assoc]

/-- The sites of two records are merged point by point. -/
theorem siteMap_merge (hr : r.Proper) (hs : s.Proper) :
    (r.merge s).siteMap = r.siteMap.merge s.siteMap := by
  funext k
  rw [SiteMap.merge, siteMap_eq, siteMap_eq, siteMap_eq, at?_merge hr hs]
  cases r.at? k with
  | none => simp
  | some a =>
    cases s.at? k with
    | none => simp
    | some b => simp [Site.plain_merge]

end Record

-- ============================================================================
-- Classes
-- ============================================================================

/-- A class of names, and the sites that transferred it. -/
structure PlainRegion where
  members : Set Name
  sites : SiteMap

/-- One of some names is in a class. -/
def PlainRegion.Meets (R : PlainRegion) (vs : Set Name) : Prop := ∃ v ∈ vs, v ∈ R.members

/-- A name by itself, not transferred. -/
def PlainRegion.fresh (v : Name) : PlainRegion := ⟨{v}, SiteMap.empty⟩

/-- Disjoint classes of names with their sites. -/
structure PlainRegions where
  classes : Set PlainRegion
  nonempty : ∀ R ∈ classes, R.members.Nonempty
  disjoint : ∀ R ∈ classes, ∀ S ∈ classes, ∀ v ∈ R.members, v ∈ S.members → R = S

namespace PlainRegions

/-- A name is in a class. -/
def Tracks (A : PlainRegions) (v : Name) : Prop := ∃ R ∈ A.classes, v ∈ R.members

/-- Two names are in one class. -/
def Links (A : PlainRegions) (a b : Name) : Prop := ∃ R ∈ A.classes, a ∈ R.members ∧ b ∈ R.members

/-- Classes are known by their members and their sites. -/
theorem mem_classes_of_agree {A B : PlainRegions} (hlinks : ∀ a b, A.Links a b → B.Links a b)
    (hlinks' : ∀ a b, B.Links a b → A.Links a b)
    (hsites : ∀ v k x, (∃ R ∈ A.classes, v ∈ R.members ∧ R.sites k = some x) ↔
      ∃ R ∈ B.classes, v ∈ R.members ∧ R.sites k = some x)
    {R : PlainRegion} (hR : R ∈ A.classes) : R ∈ B.classes := by
  obtain ⟨v, hv⟩ := A.nonempty R hR
  obtain ⟨S, hS, hvS, -⟩ := hlinks v v ⟨R, hR, hv, hv⟩
  -- the two classes of `v` have the same members and the same sites
  have hR' : ∀ T ∈ A.classes, v ∈ T.members → R = T := fun T hT hvT => A.disjoint R hR T hT v hv hvT
  have hS' : ∀ T ∈ B.classes, v ∈ T.members → S = T := fun T hT hvT => B.disjoint S hS T hT v hvS hvT
  have hmembers : R.members = S.members := by
    ext w
    constructor
    · intro hw
      obtain ⟨T, hT, hvT, hwT⟩ := hlinks v w ⟨R, hR, hv, hw⟩
      rw [hS' T hT hvT]
      exact hwT
    · intro hw
      obtain ⟨T, hT, hvT, hwT⟩ := hlinks' v w ⟨S, hS, hvS, hw⟩
      rw [hR' T hT hvT]
      exact hwT
  have hmaps : R.sites = S.sites := by
    funext k
    apply Option.ext
    intro x
    constructor
    · intro hx
      obtain ⟨T, hT, hvT, hxT⟩ := (hsites v k x).1 ⟨R, hR, hv, hx⟩
      rw [hS' T hT hvT]
      exact hxT
    · intro hx
      obtain ⟨T, hT, hvT, hxT⟩ := (hsites v k x).2 ⟨S, hS, hvS, hx⟩
      rw [hR' T hT hvT]
      exact hxT
  have heq : R = S := by
    obtain ⟨members, sites⟩ := R
    obtain ⟨members', sites'⟩ := S
    obtain rfl : members = members' := hmembers
    obtain rfl : sites = sites' := hmaps
    rfl
  rw [heq]
  exact hS

/-- Regions are told by their classes. -/
theorem ext_classes {A B : PlainRegions} (h : ∀ R, R ∈ A.classes ↔ R ∈ B.classes) : A = B := by
  obtain ⟨classes, hA, hA'⟩ := A
  obtain ⟨classes', hB, hB'⟩ := B
  obtain rfl : classes = classes' := Set.ext h
  rfl

/-- There are no classes. -/
def empty : PlainRegions where
  classes := ∅
  nonempty := fun _ hR => hR.elim
  disjoint := fun _ hR => hR.elim

/-- A name that is in no class gets one of its own. -/
def track (A : PlainRegions) (v : Name) : PlainRegions where
  classes := {R | R ∈ A.classes ∨ (¬ A.Tracks v ∧ R = .fresh v)}
  nonempty := by
    rintro R (hR | ⟨-, rfl⟩)
    · exact A.nonempty R hR
    · exact ⟨v, rfl⟩
  disjoint := by
    rintro R (hR | ⟨hv, rfl⟩) S (hS | ⟨hv', rfl⟩) w hwR hwS
    · exact A.disjoint R hR S hS w hwR hwS
    · exact absurd ⟨R, hR, (Set.mem_singleton_iff.1 hwS) ▸ hwR⟩ hv'
    · exact absurd ⟨S, hS, (Set.mem_singleton_iff.1 hwR) ▸ hwS⟩ hv
    · rfl

/-- A name leaves its class for one of its own. The class that it leaves keeps
    its other members and its sites, and is gone if there are none. -/
def redefine (A : PlainRegions) (v : Name) : PlainRegions where
  classes := {R | (R ∈ A.classes ∧ v ∉ R.members) ∨
    (∃ S ∈ A.classes, v ∈ S.members ∧ S.members ≠ {v} ∧ R = ⟨S.members \ {v}, S.sites⟩) ∨
    R = .fresh v}
  nonempty := by
    rintro R (⟨hR, -⟩ | ⟨S, -, hv, hne, rfl⟩ | rfl)
    · exact A.nonempty R hR
    · exact ((Set.eq_singleton_or_nontrivial hv).resolve_left hne).exists_ne v
    · exact ⟨v, rfl⟩
  disjoint := by
    rintro R (⟨hR, hvR⟩ | ⟨S, hS, hvS, -, rfl⟩ | rfl) R' (⟨hR', hvR'⟩ | ⟨S', hS', hvS', -, rfl⟩ | rfl)
      w hw hw'
    · exact A.disjoint R hR R' hR' w hw hw'
    · exact absurd (A.disjoint R hR S' hS' w hw hw'.1 ▸ hvS') hvR
    · exact absurd (Set.mem_singleton_iff.1 hw' ▸ hw) hvR
    · exact absurd (A.disjoint R' hR' S hS w hw' hw.1 ▸ hvS) hvR'
    · rw [A.disjoint S hS S' hS' v hvS hvS']
    · exact absurd hw' hw.2
    · exact absurd (Set.mem_singleton_iff.1 hw ▸ hw') hvR'
    · exact absurd hw hw'.2
    · rfl

/-- The class of a name gets one more site. -/
def mark (A : PlainRegions) (v : Name) (x : Site) : PlainRegions where
  classes := {R | (R ∈ A.classes ∧ v ∉ R.members) ∨
    ∃ S ∈ A.classes, v ∈ S.members ∧ R = ⟨S.members, S.sites.merge (.single x)⟩}
  nonempty := by
    rintro R (⟨hR, -⟩ | ⟨S, hS, -, rfl⟩)
    · exact A.nonempty R hR
    · exact A.nonempty S hS
  disjoint := by
    rintro R (⟨hR, hvR⟩ | ⟨S, hS, hvS, rfl⟩) R' (⟨hR', hvR'⟩ | ⟨S', hS', hvS', rfl⟩) w hw hw'
    · exact A.disjoint R hR R' hR' w hw hw'
    · exact absurd (A.disjoint R hR S' hS' w hw hw' ▸ hvS') hvR
    · exact absurd (A.disjoint R' hR' S hS w hw' hw ▸ hvS) hvR'
    · rw [A.disjoint S hS S' hS' v hvS hvS']

/-- The classes of some names become one, `U`, which has the members of all of
    them and their sites merged; all other classes stay what they are. -/
def Unites (A : PlainRegions) (vs : Set Name) (B : PlainRegions) : Prop :=
  ∃ U : PlainRegion, U.members = {w | ∃ R ∈ A.classes, R.Meets vs ∧ w ∈ R.members} ∧
    Merges (fun k y => ∃ R ∈ A.classes, R.Meets vs ∧ R.sites k = some y) U.sites ∧
    ∀ R, R ∈ B.classes ↔ (R ∈ A.classes ∧ ¬ R.Meets vs) ∨ R = U

/-- Names are linked as far as the links of two families connect them, and a
    class has the sites of all classes inside it merged. -/
structure Joins (A B C : PlainRegions) : Prop where
  links : ∀ a b, C.Links a b ↔ Relation.TransGen (fun a b => A.Links a b ∨ B.Links a b) a b
  sites : ∀ U ∈ C.classes, Merges (fun k y => ∃ R, (R ∈ A.classes ∨ R ∈ B.classes) ∧
    R.members ⊆ U.members ∧ R.sites k = some y) U.sites

end PlainRegions

end Sendability
