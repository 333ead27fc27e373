/-
  Finite tables that remember the order in which their keys were entered.

  A `Table` answers look-ups like a map and is also read in order, since the
  order of tracked names, transfer records and blocks is part of what this
  library reports. Entering a key a second time replaces its value and keeps
  its place; a key that is taken out and entered again goes last.

  A key has one entry, which the table carries a proof of. Every operation is
  a structural recursion on the list of entries. Beside each stands the
  equation that says what it does to look-ups and to the keys.
-/
namespace Sendability

universe u v w

/-- A finite table with its entries in the order of first entry, one for a
    key. -/
structure Table (κ : Type u) (α : Type v) where
  entries : List (κ × α) := []
  nodup : (entries.map Prod.fst).Nodup := by exact List.nodup_nil
  deriving DecidableEq

namespace Table

variable {κ : Type u} {α : Type v}

/-- The table with no entry. -/
def empty : Table κ α := {}

instance : Inhabited (Table κ α) := ⟨empty⟩

/-- The keys, in the order of first entry. -/
def keys (t : Table κ α) : List κ := t.entries.map Prod.fst

/-- The values, in the order of their keys. -/
def values (t : Table κ α) : List α := t.entries.map Prod.snd

/-- The number of entries. -/
def size (t : Table κ α) : Nat := t.entries.length

/-- Changes every value and keeps the keys. -/
def mapValues {β : Type w} (g : α → β) (t : Table κ α) : Table κ β where
  entries := t.entries.map fun p => (p.1, g p.2)
  nodup := by
    rw [List.map_map]
    exact t.nodup

variable [DecidableEq κ]

/-- The value of the first entry with key `k`. -/
def lookup (k : κ) : List (κ × α) → Option α
  | [] => none
  | (k', a) :: rest => if k' = k then some a else lookup k rest

/-- The entries after `k` is given the value `a`. -/
def enter (k : κ) (a : α) : List (κ × α) → List (κ × α)
  | [] => [(k, a)]
  | (k', a') :: rest => if k' = k then (k, a) :: rest else (k', a') :: enter k a rest

/-- Entering a key keeps the order of the keys; a new key goes last. -/
theorem map_fst_enter (k : κ) (a : α) (l : List (κ × α)) :
    (enter k a l).map Prod.fst =
      if k ∈ l.map Prod.fst then l.map Prod.fst else l.map Prod.fst ++ [k] := by
  induction l with
  | nil => simp [enter]
  | cons p rest ih =>
    obtain ⟨q, b⟩ := p
    by_cases h : q = k
    · subst h
      simp [enter]
    · by_cases hm : k ∈ rest.map Prod.fst
      · simp only [hm, if_true] at ih
        simp [enter, h, ih, Ne.symm h, hm]
      · simp only [hm, if_false] at ih
        simp [enter, h, ih, Ne.symm h, hm]

/-- The value entered for `k`, if any. -/
def get? (t : Table κ α) (k : κ) : Option α := lookup k t.entries

/-- Whether `k` has an entry. -/
def contains (t : Table κ α) (k : κ) : Bool := (t.get? k).isSome

/-- Gives `k` the value `a`: in place when `k` has an entry, else at the end. -/
def insert (t : Table κ α) (k : κ) (a : α) : Table κ α where
  entries := enter k a t.entries
  nodup := by
    rw [map_fst_enter]
    split
    · exact t.nodup
    · rename_i h
      rw [List.nodup_append]
      exact ⟨t.nodup, by simp, by grind⟩

/-- Takes the entry of `k` out. -/
def erase (t : Table κ α) (k : κ) : Table κ α where
  entries := t.entries.filter (·.1 ≠ k)
  nodup := t.nodup.sublist (List.filter_sublist.map Prod.fst)

/-- Enters every pair of a list in turn, so the last value of a key stands at
    the key's first place. -/
def ofList (l : List (κ × α)) : Table κ α := l.foldl (fun t p => t.insert p.1 p.2) empty

/-! ## Look-ups -/

@[simp] theorem lookup_nil (k : κ) : lookup k ([] : List (κ × α)) = none := rfl

theorem lookup_cons (k k' : κ) (a : α) (rest : List (κ × α)) :
    lookup k ((k', a) :: rest) = if k' = k then some a else lookup k rest := rfl

/-- Entering a key changes the look-up of that key only. -/
theorem lookup_enter (k k' : κ) (a : α) (l : List (κ × α)) :
    lookup k' (enter k a l) = if k = k' then some a else lookup k' l := by
  induction l with
  | nil => simp [enter, lookup]
  | cons p rest ih =>
    obtain ⟨q, b⟩ := p
    by_cases h : q = k
    · subst h
      by_cases h' : q = k' <;> simp [enter, lookup, h']
    · by_cases h' : q = k'
      · subst h'
        simp [enter, lookup, h, Ne.symm h]
      · simp [enter, lookup, h, h', ih]

@[simp] theorem get?_empty (k : κ) : (empty : Table κ α).get? k = none := rfl

theorem get?_insert (t : Table κ α) (k k' : κ) (a : α) :
    (t.insert k a).get? k' = if k = k' then some a else t.get? k' :=
  lookup_enter k k' a t.entries

@[simp] theorem get?_insert_self (t : Table κ α) (k : κ) (a : α) :
    (t.insert k a).get? k = some a := by
  simp [get?_insert]

/-- Taking a key out changes the look-up of that key only. -/
theorem get?_erase (t : Table κ α) (k k' : κ) :
    (t.erase k).get? k' = if k = k' then none else t.get? k' := by
  obtain ⟨l, hl⟩ := t
  simp only [get?, erase]
  clear hl
  induction l with
  | nil => simp
  | cons p rest ih =>
    obtain ⟨q, b⟩ := p
    by_cases h : q = k
    · subst h
      by_cases h' : q = k'
      · subst h'
        simpa using ih
      · simpa [lookup, h'] using ih
    · by_cases h' : q = k'
      · subst h'
        simp [lookup, h, Ne.symm h]
      · simpa [lookup, h, h'] using ih

/-! ## Keys -/

/-- A key has an entry exactly when a look-up finds one. -/
theorem mem_keys_iff (t : Table κ α) (k : κ) : k ∈ t.keys ↔ (t.get? k).isSome := by
  obtain ⟨l, hl⟩ := t
  simp only [keys, get?]
  clear hl
  induction l with
  | nil => simp
  | cons p rest ih =>
    obtain ⟨q, b⟩ := p
    by_cases h : q = k
    · subst h
      simp [lookup]
    · simp [lookup, h, Ne.symm h, ← ih]

/-- Entering a key keeps the order of the keys; a new key goes last. -/
theorem keys_insert (t : Table κ α) (k : κ) (a : α) :
    (t.insert k a).keys = if k ∈ t.keys then t.keys else t.keys ++ [k] :=
  map_fst_enter k a t.entries

/-- A key has an entry exactly when it is listed. -/
theorem contains_iff (t : Table κ α) (k : κ) : t.contains k = true ↔ k ∈ t.keys := by
  rw [mem_keys_iff, contains]

/-- Entering a key that has an entry keeps the keys. -/
theorem keys_insert_of_mem {t : Table κ α} {k : κ} (h : k ∈ t.keys) (a : α) :
    (t.insert k a).keys = t.keys := by
  rw [keys_insert, if_pos h]

/-- The entries are exactly what look-ups find, since a key has one entry. -/
theorem mem_entries_iff (t : Table κ α) (k : κ) (a : α) :
    (k, a) ∈ t.entries ↔ t.get? k = some a := by
  obtain ⟨l, hl⟩ := t
  simp only [get?]
  induction l with
  | nil => simp
  | cons p rest ih =>
    obtain ⟨q, b⟩ := p
    rw [List.map_cons, List.nodup_cons] at hl
    rw [List.mem_cons, lookup_cons, ih hl.2]
    by_cases h : q = k
    · subst h
      have hrest : lookup q rest ≠ some a := by
        intro hk
        have hmem : q ∈ rest.map Prod.fst := List.mem_map_of_mem ((ih hl.2).2 hk)
        exact hl.1 hmem
      simp [hrest, eq_comm]
    · simp [h, Ne.symm h]

/-- The values are what look-ups find. -/
theorem mem_values_iff (t : Table κ α) (a : α) : a ∈ t.values ↔ ∃ k, t.get? k = some a := by
  rw [values, List.mem_map]
  constructor
  · rintro ⟨⟨k, b⟩, h, rfl⟩
    exact ⟨k, (mem_entries_iff t k b).1 h⟩
  · rintro ⟨k, h⟩
    exact ⟨(k, a), (mem_entries_iff t k a).2 h, rfl⟩

/-- Where every value knows its key, the keys are read off the values. -/
theorem map_values_eq_keys {t : Table κ α} {g : α → κ} (h : ∀ k a, t.get? k = some a → g a = k) :
    t.values.map g = t.keys := by
  rw [values, keys, List.map_map]
  apply List.map_congr_left
  rintro ⟨k, a⟩ hmem
  exact h k a ((mem_entries_iff t k a).1 hmem)

/-! ## Entering and taking out lists of keys -/

theorem get?_foldl_insert (l : List κ) (a : α) (t : Table κ α) (k : κ) :
    (l.foldl (fun t v => t.insert v a) t).get? k = if k ∈ l then some a else t.get? k := by
  induction l generalizing t with
  | nil => simp
  | cons v l ih =>
    rw [List.foldl_cons, ih, get?_insert]
    by_cases hl : k ∈ l
    · simp [hl]
    · by_cases hv : v = k
      · simp [hv]
      · simp [hl, hv, Ne.symm hv]

theorem get?_foldl_erase (l : List κ) (t : Table κ α) (k : κ) :
    (l.foldl (fun t v => t.erase v) t).get? k = if k ∈ l then none else t.get? k := by
  induction l generalizing t with
  | nil => simp
  | cons v l ih =>
    rw [List.foldl_cons, ih, get?_erase]
    by_cases hl : k ∈ l
    · simp [hl]
    · by_cases hv : v = k
      · simp [hv]
      · simp [hl, hv, Ne.symm hv]

theorem entries_foldl_erase (l : List κ) (t : Table κ α) :
    (l.foldl (fun t v => t.erase v) t).entries = t.entries.filter (·.1 ∉ l) := by
  induction l generalizing t with
  | nil => exact (List.filter_eq_self.2 (by simp)).symm
  | cons v l ih =>
    rw [List.foldl_cons, ih, erase, List.filter_filter]
    refine List.filter_congr fun e _ => ?_
    simp [Bool.and_comm]

/-- The order in which keys are taken out does not matter. -/
theorem foldl_erase_congr {l l' : List κ} (h : ∀ k, k ∈ l ↔ k ∈ l') (t : Table κ α) :
    l.foldl (fun t v => t.erase v) t = l'.foldl (fun t v => t.erase v) t := by
  have hentries : (l.foldl (fun t v => t.erase v) t).entries =
      (l'.foldl (fun t v => t.erase v) t).entries := by
    simp only [entries_foldl_erase, h]
  generalize l.foldl (fun t v => t.erase v) t = a at hentries
  generalize l'.foldl (fun t v => t.erase v) t = b at hentries
  cases a
  cases b
  cases hentries
  rfl

/-- Entering keys that have entries keeps the keys. -/
theorem keys_foldl_insert {l : List κ} {t : Table κ α} (h : ∀ k ∈ l, k ∈ t.keys) (a : α) :
    (l.foldl (fun t v => t.insert v a) t).keys = t.keys := by
  induction l generalizing t with
  | nil => rfl
  | cons v l ih =>
    have hv : (t.insert v a).keys = t.keys := keys_insert_of_mem (h v (by simp)) a
    rw [List.foldl_cons, ih, hv]
    intro k hk
    rw [hv]
    exact h k (List.mem_cons_of_mem _ hk)

end Table

end Sendability
