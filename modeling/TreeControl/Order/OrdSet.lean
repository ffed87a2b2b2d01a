/-! # Ordered sets

A finite set is the strictly ascending list of its members.  Two sets with the same members
are therefore equal (`OrdSet.ext`), and a set is always read out in the order of its elements:
symbols by code point, states and rules by number.

Every operation is described through membership (`mem_insert`, `mem_ofList`, `mem_union`,
`mem_filter`, `mem_map`, `mem_bind`); the list underneath is only for reading out. -/

namespace TreeControl

/-- A finite set, kept as the strictly ascending list of its members. -/
structure OrdSet (α : Type) [Ord α] where
  /-- The members, smallest first. -/
  toList : List α
  ascending : toList.Pairwise (fun a b => compare a b = .lt)

namespace OrdSet

variable {α β : Type} [Ord α] [Ord β]

/-! ### Reading -/

instance : Membership α (OrdSet α) := ⟨fun s a => a ∈ s.toList⟩

theorem mem_def {s : OrdSet α} {a : α} : a ∈ s ↔ a ∈ s.toList := Iff.rfl

theorem toList_injective {s t : OrdSet α} (h : s.toList = t.toList) : s = t := by
  cases s; cases t; cases h; rfl

instance [DecidableEq α] : DecidableEq (OrdSet α) := fun s t =>
  if h : s.toList = t.toList then isTrue (toList_injective h)
  else isFalse fun e => h (e ▸ rfl)

instance [DecidableEq α] (a : α) (s : OrdSet α) : Decidable (a ∈ s) :=
  inferInstanceAs (Decidable (a ∈ s.toList))

/-- The number of members. -/
def size (s : OrdSet α) : Nat := s.toList.length

/-- Whether there is no member. -/
def isEmpty (s : OrdSet α) : Bool := s.toList.isEmpty

/-- The smallest member. -/
def min? (s : OrdSet α) : Option α := s.toList.head?

/-! ### Building -/

/-- The set without members. -/
def empty : OrdSet α := ⟨[], .nil⟩

instance : EmptyCollection (OrdSet α) := ⟨empty⟩

instance : Inhabited (OrdSet α) := ⟨empty⟩

@[simp] theorem not_mem_empty (a : α) : ¬ a ∈ (∅ : OrdSet α) := by
  intro h; cases h

/-- The set of one member. -/
def singleton (a : α) : OrdSet α := ⟨[a], List.pairwise_singleton _ a⟩

@[simp] theorem mem_singleton {a b : α} : b ∈ singleton a ↔ b = a :=
  List.mem_singleton

/-- Puts an element at its place in an ascending list; one that is there is not repeated. -/
def place (a : α) : List α → List α
  | [] => [a]
  | b :: bs =>
    match compare a b with
    | .lt => a :: b :: bs
    | .eq => b :: bs
    | .gt => b :: place a bs

theorem mem_of_mem_place {a x : α} {l : List α} (h : x ∈ place a l) : x = a ∨ x ∈ l := by
  induction l with
  | nil => exact .inl (List.mem_singleton.1 h)
  | cons b bs ih =>
    unfold place at h
    split at h
    · exact List.mem_cons.1 h
    · exact .inr h
    · rcases List.mem_cons.1 h with rfl | h
      · exact .inr List.mem_cons_self
      · exact (ih h).imp_right (List.mem_cons_of_mem b)

theorem mem_place_of_mem {a x : α} {l : List α} (h : x ∈ l) : x ∈ place a l := by
  induction l with
  | nil => cases h
  | cons b bs ih =>
    unfold place
    split
    · exact List.mem_cons_of_mem a h
    · exact h
    · rcases List.mem_cons.1 h with rfl | h
      · exact List.mem_cons_self
      · exact List.mem_cons_of_mem b (ih h)

theorem place_ascending [Std.TransOrd α] {a : α} {l : List α}
    (h : l.Pairwise (fun a b => compare a b = .lt)) :
    (place a l).Pairwise (fun a b => compare a b = .lt) := by
  induction l with
  | nil => exact List.pairwise_singleton _ a
  | cons b bs ih =>
    have hb := List.pairwise_cons.1 h
    unfold place
    split
    · rename_i hlt
      refine List.pairwise_cons.2 ⟨fun x hx => ?_, h⟩
      rcases List.mem_cons.1 hx with rfl | hx
      · exact hlt
      · exact Std.TransCmp.lt_trans hlt (hb.1 x hx)
    · exact h
    · rename_i hgt
      refine List.pairwise_cons.2 ⟨fun x hx => ?_, ih hb.2⟩
      rcases mem_of_mem_place hx with rfl | hx
      · exact Std.OrientedCmp.gt_iff_lt.1 hgt
      · exact hb.1 x hx

/-- The set with one more member. -/
def insert [Std.TransOrd α] (a : α) (s : OrdSet α) : OrdSet α :=
  ⟨place a s.toList, place_ascending s.ascending⟩

/-- The members of either set. -/
def union [Std.TransOrd α] (s t : OrdSet α) : OrdSet α := s.toList.foldr insert t

instance [Std.TransOrd α] : Union (OrdSet α) := ⟨union⟩

/-- The set of the elements of a list. -/
def ofList [Std.TransOrd α] (l : List α) : OrdSet α := l.foldr insert ∅

/-- The members with a property. -/
def filter (p : α → Bool) (s : OrdSet α) : OrdSet α :=
  ⟨s.toList.filter p, s.ascending.filter p⟩

/-- The images of the members. -/
def map [Std.TransOrd β] (f : α → β) (s : OrdSet α) : OrdSet β := ofList (s.toList.map f)

/-- The union of the sets that the members stand for. -/
def bind [Std.TransOrd β] (s : OrdSet α) (f : α → OrdSet β) : OrdSet β :=
  s.toList.foldr (fun a t => f a ∪ t) ∅

/-! ### Membership -/

section Lawful

variable [Std.TransOrd α] [Std.LawfulEqOrd α] [Std.TransOrd β] [Std.LawfulEqOrd β]

omit [Std.TransOrd α] in
theorem mem_place_self (a : α) (l : List α) : a ∈ place a l := by
  induction l with
  | nil => exact List.mem_cons_self
  | cons b bs ih =>
    unfold place
    split
    · exact List.mem_cons_self
    · rename_i heq
      rw [Std.LawfulEqCmp.eq_of_compare heq]
      exact List.mem_cons_self
    · exact List.mem_cons_of_mem b ih

@[simp] theorem mem_insert {a x : α} {s : OrdSet α} : x ∈ s.insert a ↔ x = a ∨ x ∈ s :=
  ⟨mem_of_mem_place, fun h => h.elim (fun e => e ▸ mem_place_self a s.toList) mem_place_of_mem⟩

@[simp] theorem mem_union {x : α} {s t : OrdSet α} : x ∈ s ∪ t ↔ x ∈ s ∨ x ∈ t := by
  show x ∈ s.toList.foldr insert t ↔ x ∈ s.toList ∨ x ∈ t
  induction s.toList with
  | nil => simp
  | cons a l ih => simp [ih, or_assoc]

@[simp] theorem mem_ofList {x : α} {l : List α} : x ∈ ofList l ↔ x ∈ l := by
  unfold ofList
  induction l with
  | nil => simp
  | cons a l ih => simp [ih]

omit [Std.TransOrd α] [Std.LawfulEqOrd α] in
@[simp] theorem mem_filter {x : α} {p : α → Bool} {s : OrdSet α} :
    x ∈ s.filter p ↔ x ∈ s ∧ p x = true :=
  List.mem_filter

omit [Std.TransOrd α] [Std.LawfulEqOrd α] in
@[simp] theorem mem_map {y : β} {f : α → β} {s : OrdSet α} :
    y ∈ s.map f ↔ ∃ x ∈ s, f x = y := by
  rw [map, mem_ofList, List.mem_map]
  exact Iff.rfl

omit [Std.TransOrd α] [Std.LawfulEqOrd α] in
@[simp] theorem mem_bind {y : β} {f : α → OrdSet β} {s : OrdSet α} :
    y ∈ s.bind f ↔ ∃ x ∈ s, y ∈ f x := by
  show y ∈ s.toList.foldr (fun a t => f a ∪ t) ∅ ↔ ∃ x ∈ s.toList, y ∈ f x
  induction s.toList with
  | nil => simp
  | cons a l ih => simp [ih]

omit [Std.LawfulEqOrd α] in
theorem compare_self (a : α) : compare a a = .eq := Std.ReflCmp.compare_self

omit [Std.LawfulEqOrd α] in
theorem nodup_toList (s : OrdSet α) : s.toList.Nodup :=
  s.ascending.imp fun {a b} h e => by
    subst e
    rw [compare_self] at h
    cases h

omit [Std.LawfulEqOrd α] in
theorem eq_of_ascending {l m : List α} (hl : l.Pairwise (fun a b => compare a b = .lt))
    (hm : m.Pairwise (fun a b => compare a b = .lt)) (h : ∀ x, x ∈ l ↔ x ∈ m) : l = m := by
  induction l generalizing m with
  | nil =>
    cases m with
    | nil => rfl
    | cons b m => exact absurd ((h b).2 List.mem_cons_self) (by simp)
  | cons a l ih =>
    cases m with
    | nil => exact absurd ((h a).1 List.mem_cons_self) (by simp)
    | cons b m =>
      have ha := List.pairwise_cons.1 hl
      have hb := List.pairwise_cons.1 hm
      have irrefl : ∀ x : α, compare x x ≠ .lt := fun x => by rw [compare_self]; simp
      have key : a = b := by
        rcases List.mem_cons.1 ((h a).1 List.mem_cons_self) with e | hab
        · exact e
        · rcases List.mem_cons.1 ((h b).2 List.mem_cons_self) with e | hba
          · exact e.symm
          · exact absurd (Std.TransCmp.lt_trans (ha.1 b hba) (hb.1 a hab)) (irrefl a)
      subst key
      refine congrArg (a :: ·) (ih ha.2 hb.2 fun x => ⟨fun hx => ?_, fun hx => ?_⟩)
      · rcases List.mem_cons.1 ((h x).1 (List.mem_cons_of_mem a hx)) with rfl | hx'
        · exact absurd (ha.1 x hx) (irrefl x)
        · exact hx'
      · rcases List.mem_cons.1 ((h x).2 (List.mem_cons_of_mem a hx)) with rfl | hx'
        · exact absurd (hb.1 x hx) (irrefl x)
        · exact hx'

omit [Std.LawfulEqOrd α] in
/-- Sets with the same members are equal. -/
theorem ext {s t : OrdSet α} (h : ∀ x, x ∈ s ↔ x ∈ t) : s = t :=
  toList_injective (eq_of_ascending s.ascending t.ascending h)

omit [Std.LawfulEqOrd α] in
theorem toList_eq_singleton_iff {s : OrdSet α} {a : α} : s.toList = [a] ↔ ∀ x, x ∈ s ↔ x = a := by
  constructor
  · intro h x
    rw [mem_def, h, List.mem_singleton]
  · intro h
    have : s = singleton a := ext fun x => by rw [h, mem_singleton]
    rw [this]
    rfl

end Lawful

/-! ### Sets of sets -/

/-- Sets are ordered like words of their members, so that a set can be a key or a member. -/
instance : Ord (OrdSet α) := ⟨fun s t => compare s.toList t.toList⟩

theorem compare_def (s t : OrdSet α) : compare s t = compare s.toList t.toList := rfl

instance [Std.TransOrd α] : Std.TransOrd (OrdSet α) where
  eq_swap {s t} := by
    rw [compare_def, compare_def]
    exact Std.OrientedCmp.eq_swap
  isLE_trans {s t u} hst htu := by
    rw [compare_def] at *
    exact Std.TransCmp.isLE_trans hst htu

instance [Std.LawfulEqOrd α] : Std.LawfulEqOrd (OrdSet α) where
  compare_self {s} := by rw [compare_def]; exact Std.ReflCmp.compare_self
  eq_of_compare {s t} h := by
    rw [compare_def] at h
    exact toList_injective (Std.LawfulEqCmp.eq_of_compare h)

/-! ### Emptiness and smallest members -/

theorem isEmpty_eq_false_iff {s : OrdSet α} : s.isEmpty = false ↔ ∃ x, x ∈ s := by
  unfold isEmpty
  rw [List.isEmpty_eq_false_iff_exists_mem]
  exact Iff.rfl

theorem mem_of_min? {s : OrdSet α} {a : α} (h : s.min? = some a) : a ∈ s := List.mem_of_head? h

theorem min?_eq_none_iff {s : OrdSet α} : s.min? = none ↔ s.isEmpty = true := by
  unfold min? isEmpty
  rw [List.head?_eq_none_iff, List.isEmpty_iff]

theorem isSome_min?_iff {s : OrdSet α} : s.min?.isSome = true ↔ ∃ x, x ∈ s := by
  rw [← isEmpty_eq_false_iff, ← Bool.not_eq_true, ← min?_eq_none_iff, Option.isSome_iff_ne_none]

end OrdSet

end TreeControl
