/-!
# Tables

A table holds one entry per key in the order in which the keys first came in; a later entry takes
the place of an earlier one.  The lemmas say what each operation does to `get?`, through which a
table is read.
-/

namespace TagLang

/-- A finite map that remembers the order in which its keys came in. -/
structure Table (κ : Type u) (α : Type v) where
  entries : List (κ × α)
  deriving Inhabited

namespace Table

variable {κ : Type u} {α : Type v} [DecidableEq κ]

/-- The table without entries. -/
def empty : Table κ α := ⟨[]⟩

/-- The number of entries. -/
def size (t : Table κ α) : Nat :=
  t.entries.length

/-- The keys in order. -/
def keys (t : Table κ α) : List κ :=
  t.entries.map (·.1)

/-- The entry of the first key that equals `k`. -/
def find? (k : κ) : List (κ × α) → Option α
  | [] => none
  | (key, a) :: rest => if key = k then some a else find? k rest

/-- The entry of a key. -/
def get? (t : Table κ α) (k : κ) : Option α :=
  find? k t.entries

/-- The key has an entry. -/
def contains (t : Table κ α) (k : κ) : Bool :=
  (t.get? k).isSome

/-- The entries with that of `k` replaced, or put at the end. -/
def put (k : κ) (a : α) : List (κ × α) → List (κ × α)
  | [] => [(k, a)]
  | (key, b) :: rest => if key = k then (k, a) :: rest else (key, b) :: put k a rest

/-- The table in which `k` has the entry `a`. -/
def insert (t : Table κ α) (k : κ) (a : α) : Table κ α :=
  ⟨put k a t.entries⟩

/-- The table without an entry for `k`. -/
def erase (t : Table κ α) (k : κ) : Table κ α :=
  ⟨t.entries.filter fun e => !decide (e.1 = k)⟩

/-- The table with the entry of `k`, if there is one, changed by `f`. -/
def modify (t : Table κ α) (k : κ) (f : α → α) : Table κ α :=
  match t.get? k with
  | some a => t.insert k (f a)
  | none => t

/-- The table of a list of entries, of which later ones win. -/
def ofList (entries : List (κ × α)) : Table κ α :=
  entries.foldl (fun t e => t.insert e.1 e.2) empty

/-! ### What `get?` sees -/

@[simp]
theorem get?_empty (k : κ) : (empty : Table κ α).get? k = none := rfl

private theorem find?_put (k k' : κ) (a : α) (entries : List (κ × α)) :
    find? k' (put k a entries) = if k = k' then some a else find? k' entries := by
  induction entries with
  | nil => simp [put, find?]
  | cons e rest ih =>
    obtain ⟨key, b⟩ := e
    by_cases hk : key = k
    · subst hk
      by_cases h : key = k' <;> simp [put, find?, h]
    · by_cases h : key = k'
      · subst h
        simp [put, find?, hk, Ne.symm hk]
      · simp [put, find?, hk, h, ih]

/-- An inserted entry is seen under its key and changes nothing else. -/
@[simp]
theorem get?_insert (t : Table κ α) (k k' : κ) (a : α) :
    (t.insert k a).get? k' = if k = k' then some a else t.get? k' :=
  find?_put k k' a t.entries

private theorem find?_filter (k k' : κ) (entries : List (κ × α)) :
    find? k' (entries.filter fun e => !decide (e.1 = k)) =
      if k = k' then none else find? k' entries := by
  induction entries with
  | nil => simp [find?]
  | cons e rest ih =>
    obtain ⟨key, b⟩ := e
    by_cases hk : key = k
    · subst hk
      by_cases h : key = k' <;> simp_all [find?]
    · by_cases h : key = k'
      · subst h
        simp [find?, hk, Ne.symm hk]
      · simp [find?, hk, h, ih]

/-- An erased entry is gone and nothing else changes. -/
@[simp]
theorem get?_erase (t : Table κ α) (k k' : κ) :
    (t.erase k).get? k' = if k = k' then none else t.get? k' :=
  find?_filter k k' t.entries

/-! ### Keys -/

theorem keys_insert (t : Table κ α) (k : κ) (a : α) :
    (t.insert k a).keys = if k ∈ t.keys then t.keys else t.keys ++ [k] := by
  obtain ⟨entries⟩ := t
  simp only [keys, insert]
  induction entries with
  | nil => rfl
  | cons e rest ih =>
    rw [put]
    by_cases hk : e.1 = k
    · simp [hk]
    · have hk' : ¬ k = e.1 := fun hc => hk hc.symm
      rw [if_neg hk, List.map_cons, ih]
      by_cases hmem : k ∈ rest.map (·.1)
      · simp [hmem]
      · simp [hmem, hk']

theorem nodup_keys_insert {t : Table κ α} (h : t.keys.Nodup) (k : κ) (a : α) :
    (t.insert k a).keys.Nodup := by
  rw [keys_insert]
  split
  · exact h
  next hk =>
    refine List.nodup_append.mpr ⟨h, List.pairwise_singleton _ _, fun x hx y hy hxy => hk ?_⟩
    rwa [hxy, List.mem_singleton.mp hy] at hx

theorem nodup_keys_erase {t : Table κ α} (h : t.keys.Nodup) (k : κ) : (t.erase k).keys.Nodup := by
  have hkeys : (t.erase k).keys = t.keys.filter fun key => !decide (key = k) := by
    simp only [keys, erase, List.filter_map]
    rfl
  rw [hkeys]
  exact h.filter _

theorem mem_keys_iff (t : Table κ α) (k : κ) : k ∈ t.keys ↔ t.get? k ≠ none := by
  obtain ⟨entries⟩ := t
  simp only [keys, get?]
  induction entries with
  | nil => simp [find?]
  | cons e rest ih =>
    rw [List.map_cons, List.mem_cons, ih, find?]
    by_cases hk : e.1 = k
    · simp [hk]
    · simp [hk, Ne.symm hk]

/-- Where no key stands twice, the entries of the list are those that are seen. -/
theorem mem_entries_iff {t : Table κ α} (h : t.keys.Nodup) (k : κ) (a : α) :
    (k, a) ∈ t.entries ↔ t.get? k = some a := by
  obtain ⟨entries⟩ := t
  simp only [keys, get?] at h ⊢
  induction entries with
  | nil => simp [find?]
  | cons e rest ih =>
    obtain ⟨key, b⟩ := e
    obtain ⟨hkey, hrest⟩ := List.nodup_cons.mp h
    rw [List.mem_cons, ih hrest, find?]
    by_cases hk : key = k
    · subst hk
      have hnone : find? key rest ≠ some a := fun hc =>
        hkey (List.mem_map.mpr ⟨_, (ih hrest).mpr hc, rfl⟩)
      simp [hnone, eq_comm]
    · simp [hk, Ne.symm hk]

end Table

end TagLang
