/-! Finite maps from names, kept in the order of the names. Two tables with the same look-ups are
equal. -/
namespace CarvFront

/-- A finite map from names to values: a list of entries whose names increase. -/
structure Table (α : Type) where
  entries : List (String × α)
  sorted : entries.Pairwise (fun a b => a.1 < b.1)

namespace Table
variable {α : Type}

/-- The table without entries. -/
def empty : Table α := ⟨[], .nil⟩

instance : EmptyCollection (Table α) := ⟨empty⟩
instance : Inhabited (Table α) := ⟨empty⟩

/-- The value of the first entry with that name. -/
def lookup (name : String) : List (String × α) → Option α
  | [] => none
  | (k, v) :: es => if k = name then some v else lookup name es

/-- The entries with `name` set to `value`, in its place by order. -/
def put (name : String) (value : α) : List (String × α) → List (String × α)
  | [] => [(name, value)]
  | (k, v) :: es =>
    if name < k then (name, value) :: (k, v) :: es
    else if k = name then (name, value) :: es
    else (k, v) :: put name value es

/-- The entries without `name`. -/
def drop (name : String) : List (String × α) → List (String × α)
  | [] => []
  | (k, v) :: es => if k = name then es else (k, v) :: drop name es

private theorem lt_of_not_lt_of_ne {a b : String} (h : ¬ a < b) (hne : b ≠ a) : b < a := by
  by_cases hba : b < a
  · exact hba
  · exact absurd (String.le_antisymm (String.not_lt.mp h) (String.not_lt.mp hba)) hne

private theorem mem_put {name : String} {value : α} {es : List (String × α)} {e : String × α}
    (h : e ∈ put name value es) : e = (name, value) ∨ e ∈ es := by
  induction es with
  | nil => simpa [put] using h
  | cons hd tl ih =>
    obtain ⟨k, v⟩ := hd
    simp only [put] at h
    split at h
    · simpa using h
    · split at h
      · rcases List.mem_cons.mp h with h | h
        · exact .inl h
        · exact .inr (List.mem_cons_of_mem _ h)
      · rcases List.mem_cons.mp h with h | h
        · exact .inr (h ▸ List.mem_cons_self)
        · rcases ih h with h | h
          · exact .inl h
          · exact .inr (List.mem_cons_of_mem _ h)

private theorem sorted_put (name : String) (value : α) {es : List (String × α)}
    (h : es.Pairwise (fun a b => a.1 < b.1)) :
    (put name value es).Pairwise (fun a b => a.1 < b.1) := by
  induction es with
  | nil => simp [put]
  | cons hd tl ih =>
    obtain ⟨k, v⟩ := hd
    obtain ⟨hk, htl⟩ := List.pairwise_cons.mp h
    simp only [put]
    split
    · next hlt =>
      refine List.pairwise_cons.mpr ⟨fun e he => ?_, h⟩
      rcases List.mem_cons.mp he with rfl | he
      · exact hlt
      · exact String.lt_trans hlt (hk e he)
    · next hnlt =>
      split
      · next heq => subst heq; exact List.pairwise_cons.mpr ⟨hk, htl⟩
      · next hne =>
        refine List.pairwise_cons.mpr ⟨fun e he => ?_, ih htl⟩
        rcases mem_put he with rfl | he
        · exact lt_of_not_lt_of_ne hnlt hne
        · exact hk e he

private theorem mem_drop {name : String} {es : List (String × α)} {e : String × α}
    (h : e ∈ drop name es) : e ∈ es := by
  induction es with
  | nil => exact h
  | cons hd tl ih =>
    obtain ⟨k, v⟩ := hd
    simp only [drop] at h
    split at h
    · exact List.mem_cons_of_mem _ h
    · rcases List.mem_cons.mp h with h | h
      · exact h ▸ List.mem_cons_self
      · exact List.mem_cons_of_mem _ (ih h)

private theorem sorted_drop (name : String) {es : List (String × α)}
    (h : es.Pairwise (fun a b => a.1 < b.1)) :
    (drop name es).Pairwise (fun a b => a.1 < b.1) := by
  induction es with
  | nil => exact h
  | cons hd tl ih =>
    obtain ⟨k, v⟩ := hd
    obtain ⟨hk, htl⟩ := List.pairwise_cons.mp h
    simp only [drop]
    split
    · exact htl
    · exact List.pairwise_cons.mpr ⟨fun e he => hk e (mem_drop he), ih htl⟩

/-- The value under `name`. -/
def find? (t : Table α) (name : String) : Option α :=
  lookup name t.entries

/-- Whether there is a value under `name`. -/
def contains (t : Table α) (name : String) : Bool :=
  (t.find? name).isSome

/-- Set the value under `name`. -/
def insert (t : Table α) (name : String) (value : α) : Table α :=
  ⟨put name value t.entries, sorted_put name value t.sorted⟩

/-- Remove the value under `name`. -/
def erase (t : Table α) (name : String) : Table α :=
  ⟨drop name t.entries, sorted_drop name t.sorted⟩

/-- Set the values of a list of entries, the last one of a name winning. -/
def insertAll (t : Table α) (es : List (String × α)) : Table α :=
  es.foldl (fun t e => t.insert e.1 e.2) t

/-- The table of a list of entries. -/
def ofList (es : List (String × α)) : Table α :=
  empty.insertAll es

/-- The names in order. -/
def names (t : Table α) : List String :=
  t.entries.map (·.1)

theorem ext_entries {t u : Table α} (h : t.entries = u.entries) : t = u := by
  cases t; cases u; cases h; rfl

private theorem lookup_put (name other : String) (value : α) (es : List (String × α)) :
    lookup other (put name value es) = if name = other then some value else lookup other es := by
  induction es with
  | nil => simp [put, lookup]
  | cons hd tl ih =>
    obtain ⟨k, v⟩ := hd
    simp only [put]
    split
    · simp [lookup]
    · split
      · next heq => subst heq; simp only [lookup]; split <;> rfl
      · next hne =>
        simp only [lookup, ih]
        split
        · next hk => rw [if_neg (fun h => hne (hk.trans h.symm))]
        · rfl

theorem find?_insert (t : Table α) (name other : String) (value : α) :
    (t.insert name value).find? other = if name = other then some value else t.find? other :=
  lookup_put name other value t.entries

private theorem lookup_eq_none {name : String} {es : List (String × α)}
    (h : ∀ e ∈ es, e.1 ≠ name) : lookup name es = none := by
  induction es with
  | nil => rfl
  | cons hd tl ih =>
    obtain ⟨k, v⟩ := hd
    simp only [lookup]
    rw [if_neg (h (k, v) List.mem_cons_self)]
    exact ih fun e he => h e (List.mem_cons_of_mem _ he)

private theorem lookup_drop (name other : String) {es : List (String × α)}
    (hs : es.Pairwise (fun a b => a.1 < b.1)) :
    lookup other (drop name es) = if name = other then none else lookup other es := by
  induction es with
  | nil => simp [drop, lookup]
  | cons hd tl ih =>
    obtain ⟨k, v⟩ := hd
    obtain ⟨hk, htl⟩ := List.pairwise_cons.mp hs
    simp only [drop]
    split
    · next heq =>
      subst heq
      simp only [lookup]
      split
      · next h =>
        subst h
        exact lookup_eq_none fun e he h => String.lt_irrefl k (h ▸ hk e he)
      · rfl
    · next hne =>
      simp only [lookup, ih htl]
      split
      · next h => rw [if_neg (fun h' => hne (h.trans h'.symm))]
      · rfl

theorem find?_erase (t : Table α) (name other : String) :
    (t.erase name).find? other = if name = other then none else t.find? other :=
  lookup_drop name other t.sorted

theorem find?_empty (name : String) : (empty : Table α).find? name = none := rfl

private theorem lookup_head {k : String} {v : α} {es : List (String × α)} :
    lookup k ((k, v) :: es) = some v := by
  simp [lookup]

private theorem lookup_none_of_lt {name : String} {es : List (String × α)}
    (h : ∀ e ∈ es, name < e.1) : lookup name es = none :=
  lookup_eq_none fun e he heq => String.lt_irrefl name (heq ▸ h e he)

private theorem entries_ext {es fs : List (String × α)}
    (hes : es.Pairwise (fun a b => a.1 < b.1)) (hfs : fs.Pairwise (fun a b => a.1 < b.1))
    (h : ∀ name, lookup name es = lookup name fs) : es = fs := by
  induction es generalizing fs with
  | nil =>
    cases fs with
    | nil => rfl
    | cons f fs => have := h f.1; simp [lookup] at this
  | cons e es ih =>
    obtain ⟨k, v⟩ := e
    obtain ⟨hk, hes⟩ := List.pairwise_cons.mp hes
    cases fs with
    | nil => have := h k; simp [lookup] at this
    | cons f fs =>
      obtain ⟨l, w⟩ := f
      obtain ⟨hl, hfs'⟩ := List.pairwise_cons.mp hfs
      have below {a b : String} {x y : α} {as bs : List (String × α)} (hab : a < b)
          (hb : ∀ e ∈ bs, b < e.1)
          (h : lookup a ((a, x) :: as) = lookup a ((b, y) :: bs)) : False := by
        rw [lookup_head, lookup_none_of_lt] at h
        · exact absurd h (by simp)
        · intro e he
          rcases List.mem_cons.mp he with rfl | he
          · exact hab
          · exact String.lt_trans hab (hb e he)
      have hkl : k = l := by
        by_cases hlt : k < l
        · exact (below hlt hl (h k)).elim
        · by_cases hgt : l < k
          · exact (below hgt hk (h l).symm).elim
          · exact String.le_antisymm (String.not_lt.mp hgt) (String.not_lt.mp hlt)
      subst hkl
      have hv : v = w := by simpa [lookup] using h k
      subst hv
      congr 1
      refine ih hes hfs' fun name => ?_
      have hn := h name
      simp only [lookup] at hn
      by_cases hkn : k = name
      · subst hkn
        rw [lookup_none_of_lt hk, lookup_none_of_lt hl]
      · simpa [hkn] using hn

/-- Tables are determined by their look-ups. -/
theorem ext_find? {t u : Table α} (h : ∀ name, t.find? name = u.find? name) : t = u :=
  ext_entries (entries_ext t.sorted u.sorted h)

end Table
end CarvFront
