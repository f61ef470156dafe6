/-
Collections of named values that remember the order in which names came.
-/
namespace Lineage

/-- Values filed under distinct names, in the order in which the names were
first used. -/
structure Catalog (α : Type) where
  entries : List (String × α) := []
  names_nodup : (entries.map Prod.fst).Nodup := by simp

namespace Catalog

variable {α β : Type}

def empty : Catalog α := {}

instance : Inhabited (Catalog α) := ⟨empty⟩

/-- The names in use, oldest first. -/
def names (c : Catalog α) : List String :=
  c.entries.map Prod.fst

def values (c : Catalog α) : List α :=
  c.entries.map Prod.snd

def size (c : Catalog α) : Nat :=
  c.entries.length

def isEmpty (c : Catalog α) : Bool :=
  c.entries.isEmpty

def contains (c : Catalog α) (name : String) : Bool :=
  c.names.contains name

def get? (c : Catalog α) (name : String) : Option α :=
  c.entries.lookup name

/-- File a value.  A name in use keeps its place and gets the new value; a new
name goes to the end. -/
def put (c : Catalog α) (name : String) (value : α) : Catalog α :=
  if h : name ∈ c.names then
    { entries := c.entries.map fun entry => (entry.1, if entry.1 = name then value else entry.2)
      names_nodup := by simpa [List.map_map, Function.comp_def] using c.names_nodup }
  else
    { entries := c.entries ++ [(name, value)]
      names_nodup := by
        simp only [names] at h
        simpa [List.nodup_append, c.names_nodup] using fun a b hab hn =>
          h (List.mem_map.mpr ⟨(a, b), hab, hn⟩) }

def modify (c : Catalog α) (name : String) (f : α → α) : Catalog α :=
  { entries := c.entries.map fun entry =>
      (entry.1, if entry.1 = name then f entry.2 else entry.2)
    names_nodup := by simpa [List.map_map, Function.comp_def] using c.names_nodup }

def putAll (c : Catalog α) (items : List (String × α)) : Catalog α :=
  items.foldl (fun filed item => filed.put item.1 item.2) c

def ofList (items : List (String × α)) : Catalog α :=
  empty.putAll items

def map (f : α → β) (c : Catalog α) : Catalog β :=
  { entries := c.entries.map fun entry => (entry.1, f entry.2)
    names_nodup := by simpa [List.map_map, Function.comp_def] using c.names_nodup }

/-! ## What each operation does to the entries -/

@[ext] theorem ext {c d : Catalog α} (h : c.entries = d.entries) : c = d := by
  cases c; cases d; cases h; rfl

theorem contains_iff {c : Catalog α} {name : String} :
    c.contains name = true ↔ name ∈ c.names := by
  simp [contains]

/-- Filing a value brings in one entry; every other one was there. -/
theorem mem_entries_put {c : Catalog α} {name : String} {value : α} {entry : String × α}
    (h : entry ∈ (c.put name value).entries) : entry = (name, value) ∨ entry ∈ c.entries := by
  unfold put at h
  split at h
  · obtain ⟨old, hold, rfl⟩ := List.mem_map.mp h
    by_cases hn : old.1 = name
    · left
      simp [hn]
    · right
      simpa [hn] using hold
  · simp only [List.mem_append, List.mem_singleton] at h
    exact h.symm

/-- A change alters the value of the one entry under its name. -/
theorem mem_entries_modify {c : Catalog α} {name : String} {f : α → α} {entry : String × α}
    (h : entry ∈ (c.modify name f).entries) :
    entry ∈ c.entries ∨ ∃ value, (name, value) ∈ c.entries ∧ entry = (name, f value) := by
  obtain ⟨old, hold, rfl⟩ := List.mem_map.mp h
  by_cases hn : old.1 = name
  · right
    subst hn
    exact ⟨old.2, hold, by simp⟩
  · left
    simpa [hn] using hold

@[simp] theorem names_empty : (empty : Catalog α).names = [] := rfl

@[simp] theorem get?_empty (name : String) : (empty : Catalog α).get? name = none := rfl

theorem lookup_isSome_iff (l : List (String × α)) (name : String) :
    (l.lookup name).isSome = true ↔ name ∈ l.map Prod.fst := by
  induction l with
  | nil => simp
  | cons entry rest ih =>
    obtain ⟨k, v⟩ := entry
    by_cases h : name = k
    · simp [h]
    · have h' : (name == k) = false := by simp [h]
      rw [List.lookup_cons, h']
      simp [h, ih]

theorem get?_isSome_iff {c : Catalog α} {name : String} :
    (c.get? name).isSome = true ↔ name ∈ c.names :=
  lookup_isSome_iff c.entries name

theorem lookup_map_update (l : List (String × α)) (name key : String) (f : α → α) :
    (l.map fun entry => (entry.1, if entry.1 = name then f entry.2 else entry.2)).lookup key =
      if key = name then (l.lookup key).map f else l.lookup key := by
  induction l with
  | nil => simp
  | cons entry rest ih =>
    obtain ⟨k, v⟩ := entry
    by_cases h : key = k
    · subst h
      by_cases hn : key = name
      · simp [hn]
      · simp [hn]
    · have h' : (key == k) = false := by simp [h]
      simp only [List.map_cons, List.lookup_cons, h', ih]

theorem get?_modify (c : Catalog α) (name key : String) (f : α → α) :
    (c.modify name f).get? key = if key = name then (c.get? key).map f else c.get? key :=
  lookup_map_update c.entries name key f

@[simp] theorem names_modify (c : Catalog α) (name : String) (f : α → α) :
    (c.modify name f).names = c.names := by
  simp [modify, names, Function.comp_def]

/-- A name in use keeps its place; a new one goes to the end. -/
theorem names_put (c : Catalog α) (name : String) (value : α) :
    (c.put name value).names = if name ∈ c.names then c.names else c.names ++ [name] := by
  unfold put
  split
  · simp [names, Function.comp_def]
  · simp [names]

/-- After filing a value it is what its name gives, and no other name gives
anything else than before. -/
theorem get?_put (c : Catalog α) (name key : String) (value : α) :
    (c.put name value).get? key = if key = name then some value else c.get? key := by
  unfold put
  split
  · rename_i h
    have := lookup_map_update c.entries name key fun _ => value
    simp only [get?] at *
    rw [this]
    split
    · rename_i hk
      subst hk
      have hs := (lookup_isSome_iff c.entries key).mpr h
      obtain ⟨v, hv⟩ := Option.isSome_iff_exists.mp hs
      simp [hv]
    · rfl
  · rename_i h
    simp only [get?, List.lookup_append]
    by_cases hk : key = name
    · subst hk
      have : c.entries.lookup key = none := by
        rw [← Option.not_isSome_iff_eq_none, lookup_isSome_iff]
        exact h
      simp [this]
    · have hk' : (key == name) = false := by simp [hk]
      simp [hk, List.lookup_cons, hk']

end Catalog
end Lineage
