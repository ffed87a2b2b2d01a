import TreeControl.Order.OrdSet

/-! # Ordered maps

A finite map is its list of entries with strictly ascending keys, so it is read out in the
order of the keys.  Every operation is described through look-up: `get?_insert`,
`get?_modify`, `get?_ofKeys`. -/

namespace TreeControl

/-- A finite map, kept as the list of its entries with strictly ascending keys. -/
structure OrdMap (κ ν : Type) [Ord κ] where
  /-- The entries, smallest key first. -/
  entries : List (κ × ν)
  ascending : entries.Pairwise (fun a b => compare a.1 b.1 = .lt)

namespace OrdMap

variable {κ ν : Type} [Ord κ]

/-! ### Reading -/

theorem entries_injective {m n : OrdMap κ ν} (h : m.entries = n.entries) : m = n := by
  cases m; cases n; cases h; rfl

instance [DecidableEq κ] [DecidableEq ν] : DecidableEq (OrdMap κ ν) := fun m n =>
  if h : m.entries = n.entries then isTrue (entries_injective h)
  else isFalse fun e => h (e ▸ rfl)

/-- The value of a key. -/
def get? [DecidableEq κ] (m : OrdMap κ ν) (k : κ) : Option ν := m.entries.lookup k

/-- Whether a key has a value. -/
def contains [DecidableEq κ] (m : OrdMap κ ν) (k : κ) : Bool := (m.get? k).isSome

/-- The keys, smallest first. -/
def keys (m : OrdMap κ ν) : List κ := m.entries.map Prod.fst

/-! ### Building -/

/-- The map without entries. -/
def empty : OrdMap κ ν := ⟨[], .nil⟩

instance : EmptyCollection (OrdMap κ ν) := ⟨empty⟩

instance : Inhabited (OrdMap κ ν) := ⟨empty⟩

/-- Puts an entry at its place in a list of ascending keys, over an entry of the same key. -/
def place (k : κ) (v : ν) : List (κ × ν) → List (κ × ν)
  | [] => [(k, v)]
  | e :: es =>
    match compare k e.1 with
    | .lt => (k, v) :: e :: es
    | .eq => (k, v) :: es
    | .gt => e :: place k v es

theorem mem_keys_of_mem_place {k : κ} {v : ν} {x : κ × ν} {l : List (κ × ν)}
    (h : x ∈ place k v l) : x.1 = k ∨ x ∈ l := by
  induction l with
  | nil => exact .inl (List.mem_singleton.1 h ▸ rfl)
  | cons e es ih =>
    unfold place at h
    split at h
    · exact (List.mem_cons.1 h).imp_left (congrArg Prod.fst)
    · exact (List.mem_cons.1 h).imp (congrArg Prod.fst) (List.mem_cons_of_mem e)
    · rcases List.mem_cons.1 h with rfl | h
      · exact .inr List.mem_cons_self
      · exact (ih h).imp_right (List.mem_cons_of_mem e)

theorem place_ascending [Std.TransOrd κ] [Std.LawfulEqOrd κ] {k : κ} {v : ν}
    {l : List (κ × ν)} (h : l.Pairwise (fun a b => compare a.1 b.1 = .lt)) :
    (place k v l).Pairwise (fun a b => compare a.1 b.1 = .lt) := by
  induction l with
  | nil => exact List.pairwise_singleton _ _
  | cons e es ih =>
    have he := List.pairwise_cons.1 h
    unfold place
    split
    · rename_i hlt
      refine List.pairwise_cons.2 ⟨fun x hx => ?_, h⟩
      rcases List.mem_cons.1 hx with rfl | hx
      · exact hlt
      · exact Std.TransCmp.lt_trans hlt (he.1 x hx)
    · rename_i heq
      refine List.pairwise_cons.2 ⟨fun x hx => ?_, he.2⟩
      exact Std.LawfulEqCmp.eq_of_compare heq ▸ he.1 x hx
    · rename_i hgt
      refine List.pairwise_cons.2 ⟨fun x hx => ?_, ih he.2⟩
      rcases mem_keys_of_mem_place hx with hx | hx
      · rw [hx]; exact Std.OrientedCmp.gt_iff_lt.1 hgt
      · exact he.1 x hx

/-- The map with a key set to a value. -/
def insert [Std.TransOrd κ] [Std.LawfulEqOrd κ] (m : OrdMap κ ν) (k : κ) (v : ν) : OrdMap κ ν :=
  ⟨place k v m.entries, place_ascending m.ascending⟩

/-- The map with the value of a key replaced; without such a key nothing changes. -/
def modify [DecidableEq κ] (m : OrdMap κ ν) (k : κ) (f : ν → ν) : OrdMap κ ν :=
  ⟨m.entries.map fun e => (e.1, if e.1 = k then f e.2 else e.2),
    List.pairwise_map.2 m.ascending⟩

/-- The map without a key. -/
def erase [DecidableEq κ] (m : OrdMap κ ν) (k : κ) : OrdMap κ ν :=
  ⟨m.entries.filter fun e => !decide (e.1 = k), m.ascending.filter _⟩

/-- The map that gives every key of a set the value of a function. -/
def ofKeys (s : OrdSet κ) (f : κ → ν) : OrdMap κ ν :=
  ⟨s.toList.map fun k => (k, f k), List.pairwise_map.2 s.ascending⟩

/-- The map from the elements of a list to the places where they first stand. -/
def numbering [DecidableEq κ] [Std.TransOrd κ] (l : List κ) : OrdMap κ Nat :=
  .ofKeys (.ofList l) l.idxOf

/-! ### Look-up -/

section Lawful

variable [DecidableEq κ]

@[simp] theorem get?_empty (k : κ) : (∅ : OrdMap κ ν).get? k = none := rfl

omit [Ord κ] in
theorem lookup_cons_eq (k : κ) (e : κ × ν) (es : List (κ × ν)) :
    (e :: es).lookup k = if k = e.1 then some e.2 else es.lookup k := by
  obtain ⟨a, b⟩ := e
  rw [List.lookup_cons]
  by_cases h : k = a
  · simp [h]
  · simp [beq_eq_false_iff_ne.2 h, h]

theorem lookup_place [Std.TransOrd κ] [Std.LawfulEqOrd κ] (k x : κ) (v : ν)
    (l : List (κ × ν)) :
    (place k v l).lookup x = if x = k then some v else l.lookup x := by
  induction l with
  | nil => simp [place, lookup_cons_eq]
  | cons e es ih =>
    unfold place
    split
    · simp [lookup_cons_eq]
    · rename_i heq
      rw [lookup_cons_eq, lookup_cons_eq, ← Std.LawfulEqCmp.eq_of_compare heq]
      by_cases h : x = k <;> simp [h]
    · rename_i hgt
      rw [lookup_cons_eq, lookup_cons_eq, ih]
      by_cases h : x = k
      · subst h
        have : x ≠ e.1 := fun e' => by
          rw [← e', OrdSet.compare_self] at hgt; cases hgt
        simp [this]
      · simp [h]

@[simp] theorem get?_insert [Std.TransOrd κ] [Std.LawfulEqOrd κ] (m : OrdMap κ ν) (k x : κ)
    (v : ν) : (m.insert k v).get? x = if x = k then some v else m.get? x :=
  lookup_place k x v m.entries

@[simp] theorem get?_modify (m : OrdMap κ ν) (k x : κ) (f : ν → ν) :
    (m.modify k f).get? x = if x = k then (m.get? x).map f else m.get? x := by
  show List.lookup x (m.entries.map _) = if x = k then (m.entries.lookup x).map f else _
  simp only [get?]
  induction m.entries with
  | nil => simp
  | cons e es ih =>
    rw [List.map_cons, lookup_cons_eq, lookup_cons_eq, ih]
    by_cases hx : x = e.1
    · subst hx
      by_cases hk : e.1 = k <;> simp [hk]
    · simp [hx]

@[simp] theorem get?_ofKeys (s : OrdSet κ) (f : κ → ν) (k : κ) :
    (ofKeys s f).get? k = if k ∈ s then some (f k) else none := by
  show List.lookup k (s.toList.map _) = if k ∈ s.toList then _ else _
  induction s.toList with
  | nil => simp
  | cons a l ih =>
    rw [List.map_cons, lookup_cons_eq, ih]
    by_cases h : k = a
    · simp [h]
    · simp [h]

@[simp] theorem get?_erase (m : OrdMap κ ν) (k x : κ) :
    (m.erase k).get? x = if x = k then none else m.get? x := by
  show List.lookup x (m.entries.filter _) = if x = k then none else m.entries.lookup x
  induction m.entries with
  | nil => simp
  | cons e es ih =>
    rw [List.filter_cons, lookup_cons_eq]
    by_cases hk : e.1 = k
    · rw [if_neg (by simp [hk]), ih, hk]
      by_cases hx : x = k <;> simp [hx]
    · rw [if_pos (by simp [hk]), lookup_cons_eq, ih]
      by_cases hx : x = e.1
      · simp [hx, hk]
      · simp [hx]

theorem modify_ofKeys (s : OrdSet κ) (f : κ → ν) (k : κ) (g : ν → ν) :
    (ofKeys s f).modify k g = ofKeys s fun x => if x = k then g (f x) else f x :=
  entries_injective (List.map_map ..)

theorem mem_entries_of_get? {m : OrdMap κ ν} {k : κ} {v : ν} (h : m.get? k = some v) :
    (k, v) ∈ m.entries := by
  unfold get? at h
  revert h
  induction m.entries with
  | nil => exact fun h => absurd h (by simp)
  | cons e es ih =>
    intro h
    rw [lookup_cons_eq] at h
    split at h
    · rename_i hk
      cases h
      rw [hk]
      exact List.mem_cons_self
    · exact List.mem_cons_of_mem e (ih h)

theorem get?_of_mem_entries [Std.TransOrd κ] [Std.LawfulEqOrd κ] {m : OrdMap κ ν} {k : κ} {v : ν}
    (h : (k, v) ∈ m.entries) : m.get? k = some v := by
  have hascending := m.ascending
  unfold get?
  revert h hascending
  induction m.entries with
  | nil => exact fun h => absurd h (by simp)
  | cons e es ih =>
    intro h hascending
    obtain ⟨hlt, hascending⟩ := List.pairwise_cons.1 hascending
    rw [lookup_cons_eq]
    rcases List.mem_cons.1 h with rfl | h
    · rw [if_pos rfl]
    · have hne : k ≠ e.1 := by
        intro hk
        have hlt := hlt (k, v) h
        rw [← hk, OrdSet.compare_self] at hlt
        cases hlt
      rw [if_neg hne]
      exact ih h hascending

theorem mem_keys_iff {m : OrdMap κ ν} {k : κ} : k ∈ m.keys ↔ m.contains k = true := by
  show k ∈ m.entries.map Prod.fst ↔ (m.entries.lookup k).isSome = true
  induction m.entries with
  | nil => simp
  | cons e es ih =>
    rw [List.map_cons, List.mem_cons, lookup_cons_eq, ih]
    by_cases h : k = e.1 <;> simp [h]

section Ext

variable [Std.TransOrd κ] [Std.LawfulEqOrd κ]

theorem mem_entries_iff {m : OrdMap κ ν} {k : κ} {v : ν} : (k, v) ∈ m.entries ↔ m.get? k = some v :=
  ⟨get?_of_mem_entries, mem_entries_of_get?⟩

/-- Maps with the same values of all keys are equal. -/
theorem ext {m n : OrdMap κ ν} (h : ∀ k, m.get? k = n.get? k) : m = n := by
  have irrefl : ∀ a : κ × ν, compare a.1 a.1 ≠ .lt := fun a => by rw [OrdSet.compare_self]; simp
  have nodup : ∀ m : OrdMap κ ν, m.entries.Nodup := fun m => m.ascending.imp fun hlt e => by
    subst e
    exact irrefl _ hlt
  have hperm : m.entries.Perm n.entries := by
    rw [List.perm_ext_iff_of_nodup (nodup m) (nodup n)]
    rintro ⟨k, v⟩
    rw [mem_entries_iff, mem_entries_iff, h]
  refine entries_injective (hperm.eq_of_pairwise (fun a b _ _ hab hba => ?_) m.ascending n.ascending)
  exact absurd (Std.TransCmp.lt_trans hab hba) (irrefl a)

/-- Entries put in one after the other. -/
theorem get?_foldl_insert (l : List κ) (f : κ → ν) (m : OrdMap κ ν) (x : κ) :
    (l.foldl (fun m k => m.insert k (f k)) m).get? x = if x ∈ l then some (f x) else m.get? x := by
  induction l generalizing m with
  | nil => simp
  | cons k l ih =>
    rw [List.foldl_cons, ih, get?_insert]
    by_cases hl : x ∈ l
    · simp [hl]
    · by_cases hk : x = k <;> simp [hl, hk]

theorem foldl_insert_eq_ofKeys (s : OrdSet κ) (f : κ → ν) :
    s.toList.foldl (fun m k => m.insert k (f k)) ∅ = ofKeys s f := by
  refine ext fun x => ?_
  rw [get?_foldl_insert, get?_ofKeys, get?_empty]
  rfl

/-! ### Numbers of elements -/

theorem get?_numbering (l : List κ) (a : κ) : (numbering l).get? a = l.idxOf? a := by
  rw [numbering, get?_ofKeys, List.idxOf?, List.findIdx?_eq_guard_findIdx_lt]
  by_cases h : a ∈ l
  · rw [if_pos (OrdSet.mem_ofList.2 h), eq_comm, Option.guard_eq_some_iff, decide_eq_true_eq]
    exact ⟨rfl, List.idxOf_lt_length_iff.2 h⟩
  · rw [if_neg fun hmem => h (OrdSet.mem_ofList.1 hmem), eq_comm, Option.guard_eq_none_iff,
      decide_eq_false_iff_not]
    exact fun hlt => h (List.idxOf_lt_length_iff.1 hlt)

theorem mem_keys_numbering {l : List κ} {a : κ} : a ∈ (numbering l).keys ↔ a ∈ l := by
  rw [mem_keys_iff, contains, get?_numbering, List.isSome_idxOf?]

/-- An element that is new gets the number that comes next. -/
theorem numbering_concat {l : List κ} {a : κ} (h : ¬ a ∈ l) :
    numbering (l ++ [a]) = (numbering l).insert a l.length := by
  refine ext fun b => ?_
  rw [get?_insert, get?_numbering, get?_numbering]
  unfold List.idxOf?
  rw [List.findIdx?_append]
  by_cases hb : b = a
  · subst hb
    have hnone : l.findIdx? (· == b) = none := List.idxOf?_eq_none_iff.2 h
    simp [hnone]
  · simp [hb, Ne.symm hb]

end Ext

end Lawful

end OrdMap

end TreeControl
