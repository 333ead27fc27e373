/-
  The types of copies are inferred exactly when they are determined.

  What the statements of a function say about types is a list of assignments without
  positions. Some give their destination a type of their own (`Assignment.Gives`); a
  copy without a written type waits for that of its source (`Assignment.Waits`). The
  second side is declarative: a typing is any map from names to types that agrees
  with every parameter and assignment (`FuncTree.Typing`).

    * Given a typing, no definition can fail, and every scope on the way is part of
      the typing (`Scope.Within`).
    * A round without progress finds no source in the scope, so a chain of copies
      that leads from the scope to a waiting copy cannot even start
      (`Rounds.succeeds`).
    * Conversely, names enter the scope only along copies, and a scope in which all
      copies are resolved is itself a typing.

  None of this looks at the order of the assignments.
-/

import Mathlib.Logic.Relation
import Sendability.Proofs.Elaboration

namespace Sendability.Source

open Relation (ReflTransGen)

-- ============================================================================
-- Assignments
-- ============================================================================

/-- What the type of a destination is taken from, if none is written. -/
inductive Origin where
  | init (type : Name)
  | load
  | copy (src : Name)
  | closure
  | call
  deriving DecidableEq

/-- What an assignment says about types, without positions. -/
structure Assignment where
  dest : Name
  written : Option Name
  origin : Origin
  deriving DecidableEq

def Rhs.origin : Rhs → Origin
  | .init t _ => .init t.text
  | .load .. => .load
  | .copy src => .copy src.text
  | .closure _ => .closure
  | .call _ => .call

def Stmt.assignment? : Stmt → Option Assignment
  | .assign dest written rhs => some ⟨dest.text, written.map Token.text, rhs.origin⟩
  | .store .. | .call _ | .use _ | .write _ => none

/-- The assignments among some statements. -/
def assignments (l : List (Located Stmt)) : List Assignment :=
  l.filterMap fun s => s.node.assignment?

/-- The waiting copy as an assignment. -/
def PendingCopy.assignment (c : PendingCopy) : Assignment :=
  ⟨c.dest.text, none, .copy c.src.text⟩

namespace Assignment

/-- A copy without a written type. -/
def Waits (a : Assignment) : Prop := ∃ d s, a = ⟨d, none, .copy s⟩

/-- The assignment itself gives its destination a type. -/
inductive Gives (types : Types) : Assignment → TypeInfo → Prop
  | built {d t : Name} : Gives types ⟨d, none, .init t⟩ (types.typeOf t)
  | checked {d w t : Name} (h : types.typeOf w = types.typeOf t) :
    Gives types ⟨d, some w, .init t⟩ (types.typeOf t)
  | closure {d : Name} : Gives types ⟨d, none, .closure⟩ (types.typeOf closureTypeName)
  | written {d w : Name} {o : Origin} (h : ∀ t, o ≠ .init t) :
    Gives types ⟨d, some w, o⟩ (types.typeOf w)

theorem waits_copy (d s : Name) : Waits ⟨d, none, .copy s⟩ := ⟨d, s, rfl⟩

theorem Gives.not_waits {types : Types} {a : Assignment} {type : TypeInfo}
    (h : a.Gives types type) : ¬ a.Waits := by
  rintro ⟨d, s, rfl⟩
  cases h

end Assignment

theorem copy_of_waits {dest : Token} {written : Option Token} {rhs : Rhs}
    (h : Assignment.Waits ⟨dest.text, written.map Token.text, rhs.origin⟩) :
    ∃ src, written = none ∧ rhs = .copy src := by
  obtain ⟨d, s, h⟩ := h
  obtain ⟨-, hwritten, horigin⟩ := Assignment.mk.inj h
  cases rhs with
  | copy src => exact ⟨src, Option.map_eq_none_iff.1 hwritten, rfl⟩
  | init t args => cases horigin
  | load base field => cases horigin
  | closure captures => cases horigin
  | call e => cases horigin

theorem assigned_eq (l : List (Located Stmt)) : assigned l = (assignments l).map (·.dest) := by
  rw [assigned, assignments, List.map_filterMap]
  congr 1
  funext s
  cases s.node with
  | assign dest written rhs => rfl
  | store base field value => rfl
  | call e => rfl
  | use v => rfl
  | write v => rfl

variable {types : Types} {scope out : Scope} {pending waiting : List PendingCopy}
  {g : Name → TypeInfo}

/-- An assignment that gives a type defines its destination. -/
theorem defineAssign_of_gives {dest : Token} {written : Option Token} {rhs : Rhs} {type : TypeInfo}
    (h : Assignment.Gives types ⟨dest.text, written.map Token.text, rhs.origin⟩ type) :
    defineAssign types scope pending dest written rhs =
      (scope.define dest type).map fun s => (s, pending) := by
  cases written with
  | none =>
    cases rhs with
    | init t args => cases h; rfl
    | load base field => cases h
    | copy src => cases h
    | closure captures => cases h; rfl
    | call e => cases h
  | some w =>
    cases rhs with
    | init t args =>
      cases h with
      | checked heq =>
        simp only [defineAssign, Option.map_some, if_pos heq]
        rfl
      | written hne => exact absurd rfl (hne t.text)
    | load base field => cases h; rfl
    | copy src => cases h; rfl
    | closure captures => cases h; rfl
    | call e => cases h; rfl

theorem define_of_map {dest : Token} {type : TypeInfo}
    (h : (scope.define dest type).map (fun s => (s, pending)) = .ok (out, waiting)) :
    scope.define dest type = .ok out ∧ waiting = pending := by
  cases hs : scope.define dest type with
  | error e =>
    rw [hs] at h
    cases h
  | ok s =>
    rw [hs] at h
    cases h
    exact ⟨rfl, rfl⟩

/-- An assignment that is accepted waits or gives a type. -/
theorem waits_or_gives {dest : Token} {written : Option Token} {rhs : Rhs}
    (h : defineAssign types scope pending dest written rhs = .ok (out, waiting)) :
    (∃ src, written = none ∧ rhs = .copy src) ∨
      ∃ type, Assignment.Gives types ⟨dest.text, written.map Token.text, rhs.origin⟩ type := by
  cases written with
  | none =>
    cases rhs with
    | init t args => exact .inr ⟨_, .built⟩
    | load base field => cases h
    | copy src => exact .inl ⟨src, rfl, rfl⟩
    | closure captures => exact .inr ⟨_, .closure⟩
    | call e => cases h
  | some w =>
    cases rhs with
    | init t args =>
      simp only [defineAssign, Option.map_some] at h
      split at h
      · rename_i heq
        exact .inr ⟨_, .checked heq⟩
      · cases h
    | load base field => exact .inr ⟨_, .written (by simp [Rhs.origin])⟩
    | copy src => exact .inr ⟨_, .written (by simp [Rhs.origin])⟩
    | closure captures => exact .inr ⟨_, .written (by simp [Rhs.origin])⟩
    | call e => exact .inr ⟨_, .written (by simp [Rhs.origin])⟩

-- ============================================================================
-- The pass over the statements
-- ============================================================================

theorem Scope.mem_keys_of_get? {x : Name} {type : TypeInfo} (h : scope.get? x = some type) :
    x ∈ scope.keys := by
  rw [Table.mem_keys_iff, h]
  rfl

/-- The type of a parameter and the name that it has in the scope. -/
def ParamTree.value (types : Types) (p : ParamTree) : Value :=
  ⟨p.name.text, types.typeOf p.type.text⟩

theorem defineParams_values {ps : List ParamTree} {vs : List Value}
    (h : defineParams types scope ps = .ok (out, vs)) : vs = ps.map (ParamTree.value types) := by
  induction ps generalizing scope vs with
  | nil =>
    cases h
    rfl
  | cons p rest ih =>
    rw [defineParams] at h
    split at h
    · cases h
    · obtain ⟨mid, -, h⟩ := ok_of_bind h
      obtain ⟨⟨last, ws⟩, hrest, h⟩ := ok_of_bind h
      cases h
      rw [ih hrest]
      rfl

/-- A statement that assigns nothing is passed over. -/
theorem defineStmts_skip {s : Located Stmt} {l : List (Located Stmt)}
    (h : s.node.assignment? = none) :
    defineStmts types scope pending (s :: l) = defineStmts types scope pending l := by
  rw [defineStmts]
  cases hs : s.node with
  | assign dest written rhs =>
    rw [hs] at h
    cases h
  | store base field value => rfl
  | call e => rfl
  | use v => rfl
  | write v => rfl

/-- A statement assigns nothing, or is an assignment. -/
theorem Stmt.assignment?_cases (s : Stmt) : s.assignment? = none ∨
    ∃ dest written rhs, s = .assign dest written rhs := by
  cases s with
  | assign dest written rhs => exact .inr ⟨dest, written, rhs, rfl⟩
  | store base field value => exact .inl rfl
  | call e => exact .inl rfl
  | use v => exact .inl rfl
  | write v => exact .inl rfl

theorem assignments_skip {s : Located Stmt} (h : s.node.assignment? = none)
    (l : List (Located Stmt)) : assignments (s :: l) = assignments l :=
  List.filterMap_cons_none h

theorem assignments_cons {s : Located Stmt} {dest : Token} {written : Option Token} {rhs : Rhs}
    (h : s.node = .assign dest written rhs) (l : List (Located Stmt)) :
    assignments (s :: l) =
      ⟨dest.text, written.map Token.text, rhs.origin⟩ :: assignments l :=
  List.filterMap_cons_some (by rw [h]; rfl)

/-- An assignment joins those that wait, or defines its destination. -/
theorem defineAssign_ok {dest : Token} {written : Option Token} {rhs : Rhs}
    (h : defineAssign types scope pending dest written rhs = .ok (out, waiting)) {a : Assignment}
    (ha : a = ⟨dest.text, written.map Token.text, rhs.origin⟩) :
    (∀ b, b ∈ waiting.map PendingCopy.assignment ↔
      b ∈ pending.map PendingCopy.assignment ∨ b = a ∧ b.Waits) ∧
    (a.Waits ∨ ∃ type, a.Gives types type ∧ out.get? a.dest = some type) ∧
    ∀ x ∈ out.keys, x ∈ scope.keys ∨ ¬ a.Waits ∧ a.dest = x := by
  rcases waits_or_gives h with ⟨src, rfl, rfl⟩ | ⟨type, hgive⟩
  · cases h
    have hw : a.Waits := ha ▸ Assignment.waits_copy _ _
    refine ⟨?_, .inl hw, fun x hx => .inl hx⟩
    intro b
    rw [List.map_append, List.mem_append, and_iff_left_of_imp fun heq : b = a => heq ▸ hw, ha]
    exact or_congr_right List.mem_singleton
  · rw [defineAssign_of_gives hgive] at h
    obtain ⟨hdefine, rfl⟩ := define_of_map h
    obtain ⟨hadds, hdest⟩ := Scope.define_ok hdefine
    rw [← ha] at hgive
    have hnot : ∀ b, ¬ (b = a ∧ b.Waits) := by
      rintro b ⟨rfl, hw⟩
      exact hgive.not_waits hw
    refine ⟨fun b => (or_iff_left (hnot b)).symm, .inr ⟨type, hgive, by rw [ha]; exact hdest⟩, ?_⟩
    intro x hx
    rcases (hadds.mem x).1 hx with hold | hnew
    · exact .inl hold
    · exact .inr ⟨hgive.not_waits, by rw [ha]; exact (List.mem_singleton.1 hnew).symm⟩

/-- The first pass over the statements accepts just the assignments that wait or
    give a type. -/
theorem defineStmts_ok {l : List (Located Stmt)}
    (h : defineStmts types scope pending l = .ok (out, waiting)) :
    (∀ a, a ∈ waiting.map PendingCopy.assignment ↔
      a ∈ pending.map PendingCopy.assignment ∨ a ∈ assignments l ∧ a.Waits) ∧
    (∀ a ∈ assignments l, a.Waits ∨ ∃ type, a.Gives types type ∧ out.get? a.dest = some type) ∧
    ∀ x ∈ out.keys, x ∈ scope.keys ∨ ∃ a ∈ assignments l, ¬ a.Waits ∧ a.dest = x := by
  induction l generalizing scope pending with
  | nil =>
    cases h
    simp [assignments]
  | cons s rest ih =>
    rcases s.node.assignment?_cases with hskip | ⟨dest, written, rhs, hs⟩
    · rw [defineStmts_skip hskip] at h
      rw [assignments_skip hskip]
      exact ih h
    · rw [assignments_cons hs]
      rw [defineStmts, hs] at h
      obtain ⟨⟨mid, left⟩, hassign, hrest⟩ := ok_of_bind h
      obtain ⟨hwait, hgive, hkey⟩ := defineAssign_ok hassign rfl
      obtain ⟨hwaits, hgives, hkeys⟩ := ih hrest
      refine ⟨?_, ?_, ?_⟩
      · intro a
        rw [hwaits, hwait, or_assoc, List.mem_cons, or_and_right]
      · intro a ha
        rcases List.mem_cons.1 ha with rfl | ha
        · obtain ⟨names, hkeep, -⟩ := defineStmts_adds hrest
          rcases hgive with hw | ⟨type, hgive, hdest⟩
          · exact .inl hw
          · exact .inr ⟨type, hgive, hkeep.keeps _ _ hdest⟩
        · exact hgives a ha
      · intro x hx
        rcases hkeys x hx with hmid | ⟨a, ha, hnew⟩
        · rcases hkey x hmid with hold | hnew
          · exact .inl hold
          · exact .inr ⟨_, List.mem_cons_self, hnew⟩
        · exact .inr ⟨a, List.mem_cons_of_mem _ ha, hnew⟩

theorem defineStmts_within {l : List (Located Stmt)} (hs : scope.Within fun x => some (g x))
    (pending : List PendingCopy) (hl : ∀ a ∈ assignments l, a.Waits ∨ a.Gives types (g a.dest)) :
    ∃ r, defineStmts types scope pending l = .ok r ∧ r.1.Within fun x => some (g x) := by
  induction l generalizing scope pending with
  | nil => exact ⟨_, rfl, hs⟩
  | cons s rest ih =>
    rcases s.node.assignment?_cases with hskip | ⟨dest, written, rhs, hassign⟩
    · rw [assignments_skip hskip] at hl
      rw [defineStmts_skip hskip]
      exact ih hs pending hl
    · rw [assignments_cons hassign] at hl
      have hrest := fun a ha => hl a (List.mem_cons_of_mem _ ha)
      rw [defineStmts, hassign]
      rcases hl _ List.mem_cons_self with hwaits | hgives
      · obtain ⟨src, rfl, rfl⟩ := copy_of_waits hwaits
        exact ih hs _ hrest
      · obtain ⟨mid, hmid, hwithin⟩ := define_of_known hs (t := dest) rfl
        simp only [defineAssign_of_gives hgives, hmid]
        exact ih hwithin pending hrest

/-- What waits after the first pass is among the assignments. -/
theorem assignment_mem {l : List (Located Stmt)}
    (h : defineStmts types scope [] l = .ok (out, waiting)) {c : PendingCopy} (hc : c ∈ waiting) :
    c.assignment ∈ assignments l := by
  obtain ⟨hwaits, -⟩ := defineStmts_ok h
  rcases (hwaits _).1 (List.mem_map_of_mem hc) with hnil | ⟨ha, -⟩
  · cases hnil
  · exact ha

-- ============================================================================
-- Rounds
-- ============================================================================

/-- The rounds over the waiting copies, as long as a copy waits. A round that
    resolves none is the last. -/
inductive Rounds : Nat → Scope → List PendingCopy → Except Fault Scope → Prop
  | done {s : Scope} : Rounds 0 s [] (.ok s)
  | fault {s : Scope} {pending : List PendingCopy} {e : Fault}
    (h : resolveRound s pending = .error e) : Rounds 1 s pending (.error e)
  | stuck {s t : Scope} {c : PendingCopy} {rest : List PendingCopy}
    (h : resolveRound s (c :: rest) = .ok (t, c :: rest)) :
    Rounds 1 s (c :: rest) (.error (.unresolvedCopy c.dest c.src))
  | again {n : Nat} {s t : Scope} {pending waiting : List PendingCopy} {r : Except Fault Scope}
    (h : resolveRound s pending = .ok (t, waiting)) (hne : waiting ≠ pending)
    (hrest : Rounds n t waiting r) : Rounds (n + 1) s pending r

theorem sublist_of_resolveRound (h : resolveRound scope pending = .ok (out, waiting)) :
    waiting.Sublist pending := by
  induction pending generalizing scope waiting with
  | nil =>
    cases h
    exact .refl _
  | cons c rest ih =>
    rw [resolveRound] at h
    split at h
    · obtain ⟨mid, -, hrest⟩ := ok_of_bind h
      exact (ih hrest).cons _
    · obtain ⟨⟨mid, waiting'⟩, hrest, hout⟩ := ok_of_bind h
      cases hout
      exact (ih hrest).cons_cons _

/-- Resolving is a matter of at most as many rounds as there are copies. -/
theorem exists_rounds (scope : Scope) (pending : List PendingCopy) :
    ∃ n ≤ pending.length, Rounds n scope pending (resolveCopies scope pending) := by
  induction hn : pending.length using Nat.strong_induction_on generalizing scope pending with
  | h k ih =>
    rw [resolveCopies]
    split
    · rename_i e hround
      refine ⟨1, ?_, .fault hround⟩
      cases pending with
      | nil => cases hround
      | cons c rest => simp [← hn]
    · rename_i s hround
      cases pending with
      | nil =>
        cases hround
        exact ⟨0, by omega, .done⟩
      | cons c rest => exact ⟨1, by simp [← hn], .again hround (by simp) .done⟩
    · rename_i s c waiting hround
      have hsub := sublist_of_resolveRound hround
      split
      · rename_i hlt
        obtain ⟨n, hle, hrounds⟩ := ih (waiting.length + 1) (by omega) s (c :: waiting) rfl
        refine ⟨n + 1, by omega, .again hround ?_ hrounds⟩
        rintro rfl
        simp at hlt
      · rename_i hge
        obtain rfl := hsub.eq_of_length_le (by simpa using hge)
        exact ⟨1, by simp [← hn], .stuck hround⟩

/-- A round resolves a copy or leaves it waiting. -/
theorem resolved_of_resolveRound (h : resolveRound scope pending = .ok (out, waiting)) :
    ∀ c ∈ pending, c ∈ waiting ∨
      ∃ type, out.get? c.src.text = some type ∧ out.get? c.dest.text = some type := by
  induction pending generalizing scope waiting with
  | nil => simp
  | cons c rest ih =>
    rw [resolveRound] at h
    split at h
    · rename_i type hsrc
      obtain ⟨mid, hdefine, hrest⟩ := ok_of_bind h
      obtain ⟨hadds, hdest⟩ := Scope.define_ok hdefine
      obtain ⟨names, hkeep, -⟩ := resolveRound_adds hrest
      intro c' hc'
      rcases List.mem_cons.1 hc' with rfl | hc'
      · exact .inr ⟨type, hkeep.keeps _ _ (hadds.keeps _ _ hsrc), hkeep.keeps _ _ hdest⟩
      · exact ih hrest c' hc'
    · obtain ⟨⟨mid, waiting'⟩, hrest, hout⟩ := ok_of_bind h
      cases hout
      intro c' hc'
      rcases List.mem_cons.1 hc' with rfl | hc'
      · exact .inl List.mem_cons_self
      · exact (ih hrest c' hc').imp_left (List.mem_cons_of_mem _)

/-- A round that resolves nothing finds no source. -/
theorem none_of_resolveRound (h : resolveRound scope pending = .ok (out, pending)) :
    ∀ c ∈ pending, scope.get? c.src.text = none := by
  induction pending with
  | nil => simp
  | cons c rest ih =>
    rw [resolveRound] at h
    split at h
    · -- the copy was resolved, and what waits is among the rest
      obtain ⟨mid, -, hrest⟩ := ok_of_bind h
      have hlen := (sublist_of_resolveRound hrest).length_le
      simp only [List.length_cons] at hlen
      omega
    · rename_i hnone
      obtain ⟨⟨mid, waiting'⟩, hrest, hout⟩ := ok_of_bind h
      cases hout
      intro c' hc'
      rcases List.mem_cons.1 hc' with rfl | hc'
      · exact hnone
      · exact ih hrest c' hc'

/-- Names come into the scope along copies. -/
theorem closed_of_resolveRound {R : Name → Prop} (hscope : ∀ x ∈ scope.keys, R x)
    (hcopies : ∀ c ∈ pending, R c.src.text → R c.dest.text)
    (h : resolveRound scope pending = .ok (out, waiting)) : ∀ x ∈ out.keys, R x := by
  induction pending generalizing scope waiting with
  | nil =>
    cases h
    exact hscope
  | cons c rest ih =>
    have hrest' : ∀ c ∈ rest, R c.src.text → R c.dest.text :=
      fun c hc => hcopies c (List.mem_cons_of_mem _ hc)
    rw [resolveRound] at h
    split at h
    · rename_i type hsrc
      obtain ⟨mid, hdefine, hrest⟩ := ok_of_bind h
      refine ih ?_ hrest' hrest
      intro x hx
      rcases ((Scope.define_ok hdefine).1.mem x).1 hx with hold | hnew
      · exact hscope x hold
      · rw [List.mem_singleton.1 hnew]
        exact hcopies c List.mem_cons_self (hscope _ (Scope.mem_keys_of_get? hsrc))
    · obtain ⟨⟨mid, waiting'⟩, hrest, hout⟩ := ok_of_bind h
      cases hout
      exact ih hscope hrest' hrest

theorem resolveRound_within (hs : scope.Within fun x => some (g x))
    (hg : ∀ c ∈ pending, g c.dest.text = g c.src.text) :
    ∃ r, resolveRound scope pending = .ok r ∧ r.1.Within fun x => some (g x) := by
  induction pending generalizing scope with
  | nil => exact ⟨_, rfl, hs⟩
  | cons c rest ih =>
    have hrest := fun c hc => hg c (List.mem_cons_of_mem _ hc)
    rw [resolveRound]
    split
    · rename_i type hsrc
      obtain ⟨mid, hmid, hwithin⟩ :=
        define_of_known hs ((congrArg some (hg c List.mem_cons_self)).trans (hs _ _ hsrc))
      rw [hmid]
      exact ih hwithin hrest
    · obtain ⟨r, hr, hwithin⟩ := ih hs hrest
      refine ⟨(r.1, c :: r.2), ?_, hwithin⟩
      rw [hr]
      rfl

namespace Rounds

variable {n : Nat} {r : Except Fault Scope}

theorem keeps (h : Rounds n scope pending (.ok out)) :
    ∀ x type, scope.get? x = some type → out.get? x = some type := by
  generalize hr : Except.ok out = r at h
  induction h with
  | done =>
    cases hr
    exact fun _ _ hx => hx
  | fault h => cases hr
  | stuck h => cases hr
  | again h hne hrest ih =>
    obtain ⟨names, hadds, -⟩ := resolveRound_adds h
    exact fun x type hx => ih hr x type (hadds.keeps x type hx)

/-- In the end every copy has the type of its source. -/
theorem resolved (h : Rounds n scope pending (.ok out)) :
    ∀ c ∈ pending, ∃ type, out.get? c.src.text = some type ∧ out.get? c.dest.text = some type := by
  generalize hr : Except.ok out = r at h
  induction h with
  | done => simp
  | fault h => cases hr
  | stuck h => cases hr
  | again h hne hrest ih =>
    intro c hc
    rcases resolved_of_resolveRound h c hc with hwaits | ⟨type, hsrc, hdest⟩
    · exact ih hr c hwaits
    · subst hr
      exact ⟨type, hrest.keeps _ _ hsrc, hrest.keeps _ _ hdest⟩

theorem closed {R : Name → Prop} (h : Rounds n scope pending (.ok out))
    (hscope : ∀ x ∈ scope.keys, R x) (hcopies : ∀ c ∈ pending, R c.src.text → R c.dest.text) :
    ∀ x ∈ out.keys, R x := by
  generalize hr : Except.ok out = r at h
  induction h with
  | done =>
    cases hr
    exact hscope
  | fault h => cases hr
  | stuck h => cases hr
  | again h hne hrest ih =>
    refine ih (closed_of_resolveRound hscope hcopies h) ?_ hr
    exact fun c hc => hcopies c ((sublist_of_resolveRound h).subset hc)

end Rounds

/-- One of the copies takes `y` from `x`. -/
def Copies (pending : List PendingCopy) (x y : Name) : Prop :=
  ∃ c ∈ pending, c.src.text = x ∧ c.dest.text = y

/-- A chain of copies leads from the scope to a name. -/
def Fed (scope : Scope) (pending : List PendingCopy) (x : Name) : Prop :=
  ∃ y ∈ scope.keys, ReflTransGen (Copies pending) y x

/-- After a round the rest of a chain leads on from the last name that the round
    has resolved. -/
theorem Fed.of_resolveRound {x : Name} (h : resolveRound scope pending = .ok (out, waiting))
    (hx : Fed scope pending x) : Fed out waiting x := by
  obtain ⟨names, hadds, -⟩ := resolveRound_adds h
  obtain ⟨y, hy, hchain⟩ := hx
  induction hchain with
  | refl => exact ⟨y, (hadds.mem y).2 (.inl hy), .refl⟩
  | tail _ hcopy ih =>
    obtain ⟨c, hc, rfl, rfl⟩ := hcopy
    rcases resolved_of_resolveRound h c hc with hwaits | ⟨type, -, hdest⟩
    · obtain ⟨z, hz, hchain⟩ := ih
      exact ⟨z, hz, hchain.tail ⟨c, hwaits, rfl, rfl⟩⟩
    · exact ⟨_, Scope.mem_keys_of_get? hdest, .refl⟩

/-- Where no source is in the scope, no chain leads to one. -/
theorem not_fed_of_none (h : ∀ c ∈ pending, scope.get? c.src.text = none) {c : PendingCopy}
    (hc : c ∈ pending) : ¬ Fed scope pending c.src.text := by
  have hnot : ∀ c ∈ pending, c.src.text ∉ scope.keys := by
    intro c hc
    simp [Table.mem_keys_iff, h c hc]
  rintro ⟨y, hy, hchain⟩
  rcases hchain.cases_head with rfl | ⟨z, ⟨c', hc', rfl, -⟩, -⟩
  · exact hnot c hc hy
  · exact hnot c' hc' hy

/-- With a typing and a chain to every source the rounds succeed, within the typing. -/
theorem Rounds.succeeds {n : Nat} {r : Except Fault Scope} (h : Rounds n scope pending r)
    (hs : scope.Within fun x => some (g x)) (hg : ∀ c ∈ pending, g c.dest.text = g c.src.text)
    (hfed : ∀ c ∈ pending, Fed scope pending c.src.text) :
    ∃ out, r = .ok out ∧ out.Within fun x => some (g x) := by
  induction h with
  | done => exact ⟨_, rfl, hs⟩
  | fault h =>
    obtain ⟨r, hr, -⟩ := resolveRound_within hs hg
    cases h.symm.trans hr
  | stuck h =>
    exact absurd (hfed _ List.mem_cons_self)
      (not_fed_of_none (none_of_resolveRound h) List.mem_cons_self)
  | again h hne hrest ih =>
    obtain ⟨r, hr, hwithin⟩ := resolveRound_within hs hg
    obtain rfl := Except.ok.inj (h.symm.trans hr)
    have hsub := sublist_of_resolveRound h
    refine ih hwithin (fun c hc => hg c (hsub.subset hc)) ?_
    exact fun c hc => (hfed c (hsub.subset hc)).of_resolveRound h

-- ============================================================================
-- Typings of a function
-- ============================================================================

namespace FuncTree

/-- The names and types of the parameters. -/
def declared (f : FuncTree) : List (Name × Name) :=
  f.params.map fun p => (p.name.text, p.type.text)

/-- What the statements of all blocks say about types. -/
def assignments (f : FuncTree) : List Assignment :=
  Source.assignments (f.blocks.flatMap BlockTree.stmts)

/-- The names that have a type: the parameters and the destinations. -/
def typedNames (f : FuncTree) : List Name :=
  f.declared.map Prod.fst ++ f.assignments.map (·.dest)

/-- The map gives every parameter and every destination the type that it has to have. -/
structure Typing (types : Types) (f : FuncTree) (g : Name → TypeInfo) : Prop where
  param : ∀ p ∈ f.declared, g p.1 = types.typeOf p.2
  init : ∀ d w t, ⟨d, w, .init t⟩ ∈ f.assignments → g d = types.typeOf t
  written : ∀ d w o, ⟨d, some w, o⟩ ∈ f.assignments → g d = types.typeOf w
  closure : ∀ d, ⟨d, none, .closure⟩ ∈ f.assignments → g d = types.typeOf closureTypeName
  copy : ∀ d s, ⟨d, none, .copy s⟩ ∈ f.assignments → g d = g s

/-- A name whose type does not hang on a copy: a parameter, or the destination of an
    assignment that does not wait. -/
def Anchored (f : FuncTree) (x : Name) : Prop :=
  x ∈ f.declared.map Prod.fst ∨ ∃ a ∈ f.assignments, ¬ a.Waits ∧ a.dest = x

/-- A copy without a written type takes `y` from `x`. -/
def CopiedTo (f : FuncTree) (x y : Name) : Prop := ⟨y, none, .copy x⟩ ∈ f.assignments

/-- A chain of copies leads from an anchored name to `x`. -/
def Supplied (f : FuncTree) (x : Name) : Prop :=
  ∃ y, f.Anchored y ∧ ReflTransGen f.CopiedTo y x

/-- Every assignment says what type it is of, or takes it from a supplied name. -/
structure Inferable (types : Types) (f : FuncTree) : Prop where
  init : ∀ d w t, ⟨d, some w, .init t⟩ ∈ f.assignments → types.typeOf w = types.typeOf t
  load : ∀ d, ⟨d, none, .load⟩ ∉ f.assignments
  call : ∀ d, ⟨d, none, .call⟩ ∉ f.assignments
  copy : ∀ d s, ⟨d, none, .copy s⟩ ∈ f.assignments → f.Supplied s

variable {f f' : FuncTree} {params : List Value}

/-- What the passes of a successful collection have done. -/
theorem scope_runs (h : f.scope types = .ok (params, scope)) :
    ∃ first second pending n, defineParams types {} f.params = .ok (first, params) ∧
      defineStmts types first [] (f.blocks.flatMap BlockTree.stmts) = .ok (second, pending) ∧
      Rounds n second pending (.ok scope) := by
  obtain ⟨⟨first, ps⟩, hparams, h⟩ := ok_of_bind h
  obtain ⟨⟨second, pending⟩, hstmts, h⟩ := ok_of_bind h
  obtain ⟨last, hcopies, h⟩ := ok_of_bind h
  cases h
  obtain ⟨n, -, hrounds⟩ := exists_rounds second pending
  rw [hcopies] at hrounds
  exact ⟨first, second, pending, n, hparams, hstmts, hrounds⟩

theorem values_names (types : Types) (f : FuncTree) :
    (f.params.map (ParamTree.value types)).map Value.name = f.declared.map Prod.fst := by
  rw [declared, List.map_map, List.map_map]
  rfl

theorem mem_keys_params (h : defineParams types {} f.params = .ok (scope, params)) (x : Name) :
    x ∈ scope.keys ↔ x ∈ f.declared.map Prod.fst := by
  have hempty : x ∉ ({} : Scope).keys := by simp [Table.keys]
  rw [(defineParams_adds h).1.mem, or_iff_right hempty, defineParams_values h, values_names]

theorem mem_keys_scope (h : f.scope types = .ok (params, scope)) (x : Name) :
    x ∈ scope.keys ↔ x ∈ f.typedNames := by
  obtain ⟨-, hkeys⟩ := scope_ok h
  obtain ⟨first, second, pending, n, hparams, -⟩ := scope_runs h
  rw [hkeys, assigned_eq, defineParams_values hparams, values_names, typedNames, List.mem_append]
  rfl

/-- A copy without a written type waits after the first pass. -/
theorem CopiedTo.waits {x y : Name} (h : f.CopiedTo x y)
    (hstmts : defineStmts types scope [] (f.blocks.flatMap BlockTree.stmts) = .ok (out, pending)) :
    Copies pending x y := by
  obtain ⟨hwaits, -⟩ := defineStmts_ok hstmts
  obtain ⟨c, hc, heq⟩ := List.mem_map.1 ((hwaits _).2 (.inr ⟨h, Assignment.waits_copy y x⟩))
  cases heq
  exact ⟨c, hc, rfl, rfl⟩

/-- In the end it has the type of its source. -/
theorem copied_of_scope (h : f.scope types = .ok (params, scope)) {x y : Name}
    (hcopy : f.CopiedTo x y) :
    ∃ type, scope.get? x = some type ∧ scope.get? y = some type := by
  obtain ⟨first, second, pending, n, hparams, hstmts, hrounds⟩ := scope_runs h
  obtain ⟨c, hc, rfl, rfl⟩ := hcopy.waits hstmts
  exact hrounds.resolved c hc

/-- Any other assignment has given its destination a type. -/
theorem gives_of_scope (h : f.scope types = .ok (params, scope)) {a : Assignment}
    (ha : a ∈ f.assignments) (hnot : ¬ a.Waits) :
    ∃ type, a.Gives types type ∧ scope.get? a.dest = some type := by
  obtain ⟨first, second, pending, n, hparams, hstmts, hrounds⟩ := scope_runs h
  obtain ⟨-, hgives, -⟩ := defineStmts_ok hstmts
  obtain ⟨type, hgive, hdest⟩ := (hgives a ha).resolve_left hnot
  exact ⟨type, hgive, hrounds.keeps _ _ hdest⟩

/-- Every name that is collected is supplied. -/
theorem supplied_of_scope (h : f.scope types = .ok (params, scope)) :
    ∀ x ∈ scope.keys, f.Supplied x := by
  obtain ⟨first, second, pending, n, hparams, hstmts, hrounds⟩ := scope_runs h
  obtain ⟨-, -, hkeys⟩ := defineStmts_ok hstmts
  refine hrounds.closed ?_ ?_
  · intro x hx
    exact ⟨x, (hkeys x hx).imp_left (mem_keys_params hparams x).1, .refl⟩
  · rintro c hc ⟨y, hy, hchain⟩
    exact ⟨y, hy, hchain.tail (assignment_mem hstmts hc)⟩

theorem inferable_of_scope (h : f.scope types = .ok (params, scope)) : f.Inferable types where
  init d w t ha := by
    obtain ⟨type, hgive, -⟩ := gives_of_scope h ha (by simp [Assignment.Waits])
    cases hgive with
    | checked heq => exact heq
    | written hne => exact absurd rfl (hne t)
  load d ha := by
    obtain ⟨type, hgive, -⟩ := gives_of_scope h ha (by simp [Assignment.Waits])
    cases hgive
  call d ha := by
    obtain ⟨type, hgive, -⟩ := gives_of_scope h ha (by simp [Assignment.Waits])
    cases hgive
  copy d s ha := by
    obtain ⟨type, hsrc, -⟩ := copied_of_scope h ha
    exact supplied_of_scope h s (Scope.mem_keys_of_get? hsrc)

/-- The collected types are a typing. -/
theorem typing_of_scope (h : f.scope types = .ok (params, scope)) :
    f.Typing types fun x => (scope.get? x).getD default where
  param p hp := by
    obtain ⟨first, second, pending, n, hparams, -⟩ := scope_runs h
    obtain ⟨q, hq, rfl⟩ := List.mem_map.1 hp
    have hmem : q.value types ∈ params := by
      rw [defineParams_values hparams]
      exact List.mem_map_of_mem hq
    have htype : scope.get? q.name.text = some (types.typeOf q.type.text) :=
      (Source.scope_ok h).1 _ hmem
    rw [htype]
    rfl
  init d w t ha := by
    obtain ⟨type, hgive, hdest⟩ := gives_of_scope h ha (by simp [Assignment.Waits])
    rw [hdest]
    cases hgive with
    | built => rfl
    | checked heq => rfl
    | written hne => exact absurd rfl (hne t)
  written d w o ha := by
    obtain ⟨type, hgive, hdest⟩ := gives_of_scope h ha (by simp [Assignment.Waits])
    rw [hdest]
    cases hgive with
    | checked heq => exact heq.symm
    | written hne => rfl
  closure d ha := by
    obtain ⟨type, hgive, hdest⟩ := gives_of_scope h ha (by simp [Assignment.Waits])
    rw [hdest]
    cases hgive
    rfl
  copy d s ha := by
    obtain ⟨type, hsrc, hdest⟩ := copied_of_scope h ha
    rw [hsrc, hdest]

/-- An assignment of an inferable function waits or gives the type of a typing. -/
theorem Typing.waits_or_gives (hg : f.Typing types g) (hf : f.Inferable types) :
    ∀ a ∈ f.assignments, a.Waits ∨ a.Gives types (g a.dest) := by
  rintro ⟨d, w, o⟩ ha
  cases w with
  | none =>
    cases o with
    | init t =>
      rw [hg.init d none t ha]
      exact .inr .built
    | load => exact absurd ha (hf.load d)
    | copy s => exact .inl (Assignment.waits_copy d s)
    | closure =>
      rw [hg.closure d ha]
      exact .inr .closure
    | call => exact absurd ha (hf.call d)
  | some w =>
    by_cases ho : ∃ t, o = .init t
    · obtain ⟨t, rfl⟩ := ho
      rw [hg.init d (some w) t ha]
      exact .inr (.checked (hf.init d w t ha))
    · rw [hg.written d w o ha]
      exact .inr (.written (not_exists.1 ho))

/-- A chain to a name is one that the rounds can follow, since what is anchored is in
    the scope before the first of them. -/
theorem Supplied.fed {x : Name} (hx : f.Supplied x)
    (hscope : ∀ y, f.Anchored y → y ∈ scope.keys)
    (hwaits : ∀ y z, f.CopiedTo y z → Copies pending y z) : Fed scope pending x := by
  obtain ⟨y, hy, hchain⟩ := hx
  exact ⟨y, hscope y hy, ReflTransGen.mono hwaits _ _ hchain⟩

theorem mem_keys_of_anchored {first : Scope}
    (hparams : defineParams types {} f.params = .ok (first, params))
    (hstmts : defineStmts types first [] (f.blocks.flatMap BlockTree.stmts) = .ok (scope, pending))
    {x : Name} (hx : f.Anchored x) : x ∈ scope.keys := by
  obtain ⟨names, hkeep, -⟩ := defineStmts_adds hstmts
  obtain ⟨-, hgives, -⟩ := defineStmts_ok hstmts
  rcases hx with hparam | ⟨a, ha, hnot, rfl⟩
  · exact (hkeep.mem x).2 (.inl ((mem_keys_params hparams x).2 hparam))
  · obtain ⟨type, -, hdest⟩ := (hgives a ha).resolve_left hnot
    exact Scope.mem_keys_of_get? hdest

theorem Typing.defineParams_within (hg : f.Typing types g)
    (hnodup : (f.declared.map Prod.fst).Nodup) :
    ∃ first, defineParams types {} f.params = .ok (first, f.params.map (ParamTree.value types)) ∧
      first.Within fun x => some (g x) := by
  have hempty : Scope.Within {} fun x => some (g x) := fun x type hx => by cases hx
  have hvalues : List.Forall₂ (fun p v => p.name.text = v.name ∧ types.typeOf p.type.text = v.type)
      f.params (f.params.map (ParamTree.value types)) := by
    rw [List.forall₂_map_right_iff, List.forall₂_same]
    exact fun p _ => ⟨rfl, rfl⟩
  have hknown : ∀ v ∈ f.params.map (ParamTree.value types), some (g v.name) = some v.type := by
    intro v hv
    obtain ⟨p, hp, rfl⟩ := List.mem_map.1 hv
    exact congrArg some (hg.param _ (List.mem_map_of_mem hp))
  rw [← values_names types] at hnodup
  exact defineParams_of_known hvalues hknown hnodup (by simp [Table.keys]) hempty

/-- With a typing, an inferable function succeeds, within the typing. -/
theorem Typing.scope_within (hg : f.Typing types g) (hf : f.Inferable types)
    (hnodup : (f.declared.map Prod.fst).Nodup) :
    ∃ r, f.scope types = .ok r ∧ r.2.Within fun x => some (g x) := by
  obtain ⟨first, hparams, hfirst⟩ := hg.defineParams_within hnodup
  obtain ⟨⟨second, pending⟩, hstmts, hsecond⟩ :=
    defineStmts_within hfirst [] (hg.waits_or_gives hf)
  obtain ⟨n, -, hrounds⟩ := exists_rounds second pending
  have hmem : ∀ c ∈ pending, c.assignment ∈ f.assignments := fun c => assignment_mem hstmts
  have hfed : ∀ c ∈ pending, Fed second pending c.src.text := by
    intro c hc
    refine (hf.copy _ _ (hmem c hc)).fed ?_ ?_
    · exact fun y => mem_keys_of_anchored hparams hstmts
    · exact fun y z hcopy => hcopy.waits hstmts
  obtain ⟨last, hlast, hwithin⟩ :=
    hrounds.succeeds hsecond (fun c hc => hg.copy _ _ (hmem c hc)) hfed
  refine ⟨(f.params.map (ParamTree.value types), last), ?_, hwithin⟩
  simp only [FuncTree.scope, hparams, hstmts, hlast, bind, Except.bind]
  rfl

theorem scope_isOk_iff (hnodup : (f.declared.map Prod.fst).Nodup) :
    (∃ r, f.scope types = .ok r) ↔ f.Inferable types ∧ ∃ g, f.Typing types g := by
  refine ⟨?_, ?_⟩
  · rintro ⟨⟨params, scope⟩, h⟩
    exact ⟨inferable_of_scope h, _, typing_of_scope h⟩
  · rintro ⟨hf, g, hg⟩
    obtain ⟨r, hr, -⟩ := hg.scope_within hf hnodup
    exact ⟨r, hr⟩

/-- The collected types are those of any typing, for the names that have one. -/
theorem get?_scope (hnodup : (f.declared.map Prod.fst).Nodup)
    (h : f.scope types = .ok (params, scope)) (hg : f.Typing types g) (x : Name) :
    scope.get? x = if x ∈ f.typedNames then some (g x) else none := by
  obtain ⟨r, hr, hwithin⟩ := hg.scope_within (inferable_of_scope h) hnodup
  obtain rfl := Except.ok.inj (h.symm.trans hr)
  have hkeys := mem_keys_scope h x
  rw [Table.mem_keys_iff] at hkeys
  split
  · rename_i hx
    obtain ⟨type, htype⟩ := Option.isSome_iff_exists.1 (hkeys.2 hx)
    rw [htype]
    exact (hwithin x type htype).symm
  · rename_i hx
    rw [← hkeys] at hx
    simpa using hx

-- ============================================================================
-- Order
-- ============================================================================

/-- The functions have the same parameters and the same assignments, in any order and
    in any blocks. -/
structure Rearranges (f f' : FuncTree) : Prop where
  declared : f'.declared.Perm f.declared
  assignments : f'.assignments.Perm f.assignments

namespace Rearranges

theorem typedNames (h : f.Rearranges f') (x : Name) : x ∈ f'.typedNames ↔ x ∈ f.typedNames :=
  ((h.declared.map _).append (h.assignments.map _)).mem_iff

theorem symm (h : f.Rearranges f') : f'.Rearranges f := ⟨h.declared.symm, h.assignments.symm⟩

theorem typing (h : f.Rearranges f') (hg : f.Typing types g) : f'.Typing types g where
  param p hp := hg.param p (h.declared.mem_iff.1 hp)
  init d w t ha := hg.init d w t (h.assignments.mem_iff.1 ha)
  written d w o ha := hg.written d w o (h.assignments.mem_iff.1 ha)
  closure d ha := hg.closure d (h.assignments.mem_iff.1 ha)
  copy d s ha := hg.copy d s (h.assignments.mem_iff.1 ha)

theorem supplied (h : f.Rearranges f') {x : Name} (hx : f.Supplied x) : f'.Supplied x := by
  obtain ⟨y, hy, hchain⟩ := hx
  refine ⟨y, ?_, ReflTransGen.mono (fun _ _ ha => h.assignments.mem_iff.2 ha) _ _ hchain⟩
  rcases hy with hparam | ⟨a, ha, hrest⟩
  · exact .inl ((h.declared.map _).mem_iff.2 hparam)
  · exact .inr ⟨a, h.assignments.mem_iff.2 ha, hrest⟩

theorem inferable (h : f.Rearranges f') (hf : f.Inferable types) : f'.Inferable types where
  init d w t ha := hf.init d w t (h.assignments.mem_iff.1 ha)
  load d ha := hf.load d (h.assignments.mem_iff.1 ha)
  call d ha := hf.call d (h.assignments.mem_iff.1 ha)
  copy d s ha := h.supplied (hf.copy d s (h.assignments.mem_iff.1 ha))

/-- A rearranged function succeeds as well, with the same types. -/
theorem scope_eq (h : f.Rearranges f') (hnodup : (f.declared.map Prod.fst).Nodup)
    (hscope : f.scope types = .ok (params, scope)) :
    ∃ params' scope', f'.scope types = .ok (params', scope') ∧
      ∀ x, scope'.get? x = scope.get? x := by
  have hnodup' : (f'.declared.map Prod.fst).Nodup := (h.declared.map _).nodup_iff.2 hnodup
  have hg := typing_of_scope hscope
  obtain ⟨⟨params', scope'⟩, hscope'⟩ :=
    (scope_isOk_iff hnodup').2 ⟨h.inferable (inferable_of_scope hscope), _, h.typing hg⟩
  refine ⟨params', scope', hscope', ?_⟩
  intro x
  rw [get?_scope hnodup hscope hg, get?_scope hnodup' hscope' (h.typing hg)]
  simp only [h.typedNames]

end Rearranges

/-- Collecting types ends after at most as many rounds as copies wait. It succeeds if
    and only if the function is inferable and has a typing, and then the types are
    those of the typing, for just the parameters and destinations. Neither depends
    on the order of blocks and statements. -/
theorem scope_infers (types : Types) (f : FuncTree) (hnodup : (f.declared.map Prod.fst).Nodup) :
    (∀ scope pending, ∃ n ≤ pending.length, Rounds n scope pending (resolveCopies scope pending)) ∧
    ((∃ r, f.scope types = .ok r) ↔ f.Inferable types ∧ ∃ g, f.Typing types g) ∧
    (∀ params scope, f.scope types = .ok (params, scope) →
      params = f.params.map (ParamTree.value types) ∧
      ∀ g, f.Typing types g → ∀ x,
        scope.get? x = if x ∈ f.typedNames then some (g x) else none) ∧
    ∀ f', f.Rearranges f' →
      ((∃ r, f'.scope types = .ok r) ↔ ∃ r, f.scope types = .ok r) ∧
      ∀ params scope params' scope', f.scope types = .ok (params, scope) →
        f'.scope types = .ok (params', scope') → ∀ x, scope'.get? x = scope.get? x := by
  refine ⟨exists_rounds, scope_isOk_iff hnodup, ?_, ?_⟩
  · intro params scope h
    obtain ⟨first, second, pending, n, hparams, -⟩ := scope_runs h
    exact ⟨defineParams_values hparams, fun g hg => get?_scope hnodup h hg⟩
  · intro f' hf'
    have hnodup' : (f'.declared.map Prod.fst).Nodup := (hf'.declared.map _).nodup_iff.2 hnodup
    refine ⟨⟨?_, ?_⟩, ?_⟩
    · rintro ⟨⟨params', scope'⟩, h'⟩
      obtain ⟨params, scope, h, -⟩ := hf'.symm.scope_eq hnodup' h'
      exact ⟨_, h⟩
    · rintro ⟨⟨params, scope⟩, h⟩
      obtain ⟨params', scope', h', -⟩ := hf'.scope_eq hnodup h
      exact ⟨_, h'⟩
    · intro params scope params' scope' h h'
      obtain ⟨params'', scope'', h'', hsame⟩ := hf'.scope_eq hnodup h
      obtain ⟨rfl, rfl⟩ := Prod.mk.inj (Except.ok.inj (h'.symm.trans h''))
      exact hsame

/-- A name anywhere in a text. -/
def nameToken (text : Text) : Token := ⟨.name, text, {}, {}⟩

/-- A function with the blocks `first` and `last`, which end in a return. -/
def twoBlocks (first last : List Stmt) : FuncTree :=
  let block (label : Text) (l : List Stmt) : BlockTree :=
    ⟨⟨.label, label, {}, {}⟩, l.map fun s => ⟨{}, {}, s⟩, ⟨{}, {}, .ret none⟩⟩
  { name := nameToken "f", params := [⟨nameToken "x", nameToken "Box"⟩], domain := nameToken "main"
    entry := block "@entry" first, others := [block "@last" last] }

/-- A chain of copies that runs against the text, from a load to `c`, and back to
    its start. -/
def chain : List Stmt :=
  [.assign (nameToken "c") none (.copy (nameToken "b")),
   .assign (nameToken "b") none (.copy (nameToken "a")),
   .assign (nameToken "a") none (.copy (nameToken "c")),
   .assign (nameToken "a") (some (nameToken "Box")) (.load (nameToken "x") (nameToken "next"))]

theorem chain_inferred : ∃ params scope params' scope',
    ((twoBlocks chain []).declared.map Prod.fst).Nodup ∧
    (twoBlocks chain []).Typing {} (fun _ => ⟨"Box", false⟩) ∧
    (twoBlocks chain []).Rearranges (twoBlocks [] chain.reverse) ∧
    (twoBlocks chain []).scope {} = .ok (params, scope) ∧
    scope.get? "c" = some ⟨"Box", false⟩ ∧ scope.get? "next" = none ∧
    (twoBlocks [] chain.reverse).scope {} = .ok (params', scope') ∧
    ∀ x, scope'.get? x = scope.get? x := by
  have hnodup : ((twoBlocks chain []).declared.map Prod.fst).Nodup := by decide
  have hlist : (twoBlocks chain []).assignments =
      [⟨"c", none, .copy "b"⟩, ⟨"b", none, .copy "a"⟩, ⟨"a", none, .copy "c"⟩,
        ⟨"a", some "Box", .load⟩] := by decide
  have htyping : (twoBlocks chain []).Typing {} fun _ => ⟨"Box", false⟩ := by
    refine ⟨by decide, ?_, ?_, ?_, fun _ _ _ => rfl⟩
    · simp [hlist]
    · intro d w o ha
      obtain ⟨-, rfl, -⟩ : d = "a" ∧ w = "Box" ∧ o = .load := by simpa [hlist] using ha
      decide
    · simp [hlist]
  have hrearranges : (twoBlocks chain []).Rearranges (twoBlocks [] chain.reverse) :=
    ⟨by decide, by decide⟩
  obtain ⟨-, -, htypes, horder⟩ := scope_infers {} (twoBlocks chain []) hnodup
  obtain ⟨hsucceeds, hsame⟩ := horder _ hrearranges
  have hsome : ((twoBlocks chain []).scope {}).toOption.isSome = true := by decide +kernel
  obtain ⟨⟨params, scope⟩, hscope⟩ := exists_ok_of_isSome hsome
  obtain ⟨⟨params', scope'⟩, hscope'⟩ := hsucceeds.2 ⟨_, hscope⟩
  have hget := (htypes params scope hscope).2 _ htyping
  refine ⟨params, scope, params', scope', hnodup, htyping, hrearranges, hscope, ?_, ?_, hscope',
    hsame _ _ _ _ hscope hscope'⟩
  · rw [hget, if_pos (by decide)]
  · rw [hget, if_neg (by decide)]

end FuncTree

end Sendability.Source
