/-!
# Registries

Finitely many things by number, each number once, in the order in which they were entered. Entering
under a number that is taken replaces the thing in its place.
-/

namespace HazardLifo

universe u

structure Registry (α : Type u) where
  entries : List (Nat × α)
  nodup : (entries.map Prod.fst).Nodup

namespace Registry

variable {α : Type u}

def empty : Registry α := ⟨[], List.nodup_nil⟩

instance : EmptyCollection (Registry α) := ⟨empty⟩

instance : Inhabited (Registry α) := ⟨empty⟩

def keys (r : Registry α) : List Nat := r.entries.map Prod.fst

def values (r : Registry α) : List α := r.entries.map Prod.snd

def get? (r : Registry α) (k : Nat) : Option α := (r.entries.find? (·.1 == k)).map Prod.snd

def contains (r : Registry α) (k : Nat) : Bool := (r.get? k).isSome

def modify (r : Registry α) (k : Nat) (f : α → α) : Registry α where
  entries := r.entries.map fun e => (e.1, if e.1 = k then f e.2 else e.2)
  nodup := by
    rw [List.map_map]
    exact r.nodup

def insert (r : Registry α) (k : Nat) (a : α) : Registry α :=
  if h : k ∈ r.entries.map Prod.fst then r.modify k fun _ => a
  else
    { entries := r.entries ++ [(k, a)]
      nodup := by
        rw [List.map_append, List.nodup_append]
        exact ⟨r.nodup, by simp, by rintro x hx y hy rfl; simp at hy; exact h (hy ▸ hx)⟩ }

def erase (r : Registry α) (k : Nat) : Registry α where
  entries := r.entries.filter (·.1 != k)
  nodup := r.nodup.sublist (List.Sublist.map _ List.filter_sublist)

/-! ## Reading after a change -/

@[simp] theorem get?_empty (k : Nat) : (empty : Registry α).get? k = none := rfl

theorem get?_eq_none_iff {r : Registry α} {k : Nat} : r.get? k = none ↔ k ∉ r.keys := by
  simp only [get?, keys, Option.map_eq_none_iff, List.find?_eq_none, List.mem_map, not_exists, not_and]
  constructor
  · intro h e he hk
    exact h e he (by simp [hk])
  · intro h e he hk
    exact h e he (by simpa using hk)

theorem get?_modify (r : Registry α) (k : Nat) (f : α → α) (j : Nat) :
    (r.modify k f).get? j = if j = k then (r.get? k).map f else r.get? j := by
  obtain ⟨entries, hnodup⟩ := r
  simp only [get?, modify]
  clear hnodup
  induction entries with
  | nil => simp
  | cons e rest ih =>
    obtain ⟨i, a⟩ := e
    simp only [List.map_cons, List.find?_cons]
    by_cases hi : i = j
    · subst hi
      by_cases hk : i = k
      · subst hk; simp
      · simp [hk]
    · rw [show (i == j) = false by simpa using hi]
      simp only [ih]
      by_cases hj : j = k
      · subst hj
        simp [show (i == j) = false by simpa using hi]
      · simp [hj]

theorem get?_insert (r : Registry α) (k : Nat) (a : α) (j : Nat) :
    (r.insert k a).get? j = if j = k then some a else r.get? j := by
  unfold insert
  split
  · rename_i h
    rw [get?_modify]
    split
    · have : r.get? k ≠ none := fun hn => get?_eq_none_iff.1 hn h
      obtain ⟨b, hb⟩ := Option.ne_none_iff_exists'.1 this
      simp [hb]
    · rfl
  · rename_i h
    have hk : r.get? k = none := get?_eq_none_iff.2 h
    simp only [get?] at hk ⊢
    rw [List.find?_append]
    by_cases hj : j = k
    · subst hj
      rw [Option.map_eq_none_iff] at hk
      simp [hk]
    · have : (k == j) = false := by simpa using fun h => hj h.symm
      simp [hj, this]

theorem get?_erase (r : Registry α) (k j : Nat) :
    (r.erase k).get? j = if j = k then none else r.get? j := by
  simp only [get?, erase, List.find?_filter]
  split
  · rename_i h
    subst h
    rw [Option.map_eq_none_iff, List.find?_eq_none]
    simp
  · rename_i h
    congr 2
    funext e
    by_cases he : e.1 = j
    · simp [he, h]
    · simp [he]

/-! ## The entries as a collection -/

theorem mem_keys_of_mem {r : Registry α} {k : Nat} {a : α} (h : (k, a) ∈ r.entries) : k ∈ r.keys :=
  List.mem_map.2 ⟨_, h, rfl⟩

theorem get?_eq_some_iff {r : Registry α} {k : Nat} {a : α} :
    r.get? k = some a ↔ (k, a) ∈ r.entries := by
  obtain ⟨entries, hnodup⟩ := r
  simp only [get?]
  induction entries with
  | nil => simp
  | cons e rest ih =>
    obtain ⟨i, b⟩ := e
    obtain ⟨hi, hrest⟩ := List.nodup_cons.1 hnodup
    rw [List.find?_cons, List.mem_cons, Prod.mk.injEq]
    by_cases h : i = k
    · subst h
      have hne : (i, a) ∉ rest := fun hm => hi (List.mem_map.2 ⟨_, hm, rfl⟩)
      simp [hne, eq_comm]
    · rw [show ((i, b).1 == k) = false by simpa using h]
      simp only [ih hrest, Ne.symm h, false_and, false_or]

theorem isSome_get?_iff {r : Registry α} {k : Nat} : (r.get? k).isSome ↔ k ∈ r.keys := by
  rw [Option.isSome_iff_ne_none, ne_eq, get?_eq_none_iff, Decidable.not_not]

theorem entries_insert {r : Registry α} {k : Nat} (h : r.get? k = none) (a : α) :
    (r.insert k a).entries = r.entries ++ [(k, a)] := by
  have hk : k ∉ r.entries.map Prod.fst := get?_eq_none_iff.1 h
  rw [insert, dif_neg hk]

theorem entries_perm {r : Registry α} {k : Nat} {a : α} (h : r.get? k = some a) :
    r.entries.Perm ((k, a) :: (r.erase k).entries) := by
  have hmem := get?_eq_some_iff.1 h
  obtain ⟨entries, hnodup⟩ := r
  simp only [erase] at hmem ⊢
  clear h
  induction entries with
  | nil => cases hmem
  | cons e rest ih =>
    obtain ⟨i, b⟩ := e
    obtain ⟨hi, hrest⟩ := List.nodup_cons.1 hnodup
    rcases List.mem_cons.1 hmem with heq | hmem
    · obtain ⟨rfl, rfl⟩ := Prod.mk.inj heq
      have hkeep : rest.filter (·.1 != k) = rest := List.filter_eq_self.2 fun e he => by
        have hne : e.1 ≠ k := fun hk => hi (List.mem_map.2 ⟨e, he, hk⟩)
        simpa using hne
      simp [hkeep]
    · have hne : i ≠ k := fun hk => hi (List.mem_map.2 ⟨_, hmem, hk.symm⟩)
      rw [List.filter_cons_of_pos (by simpa using hne)]
      exact ((ih hrest hmem).cons _).trans (.swap ..)

theorem erase_modify (r : Registry α) (k : Nat) (f : α → α) : (r.modify k f).erase k = r.erase k := by
  simp only [erase, modify, List.filter_map, mk.injEq]
  refine (List.map_congr_left fun e he => ?_).trans (List.map_id _)
  have hne : e.1 ≠ k := by simpa using (List.mem_filter.1 he).2
  simp [hne]

theorem entries_modify_perm {r : Registry α} {k : Nat} {a : α} (h : r.get? k = some a) (f : α → α) :
    (r.modify k f).entries.Perm ((k, f a) :: (r.erase k).entries) := by
  have h' : (r.modify k f).get? k = some (f a) := by rw [get?_modify, if_pos rfl, h, Option.map_some]
  simpa only [erase_modify] using entries_perm h'

theorem modify_congr {r : Registry α} {k : Nat} {f g : α → α}
    (h : ∀ a, r.get? k = some a → f a = g a) : r.modify k f = r.modify k g := by
  simp only [modify, mk.injEq]
  refine List.map_congr_left fun e he => ?_
  split
  · rename_i hk
    rw [h e.2 (get?_eq_some_iff.2 (hk ▸ he))]
  · rfl

theorem modify_eq_self {r : Registry α} {k : Nat} {f : α → α}
    (h : ∀ a, r.get? k = some a → f a = a) : r.modify k f = r := by
  rw [modify_congr (g := id) (by simpa using h)]
  obtain ⟨entries, hnodup⟩ := r
  simp [modify]

theorem modify_modify (r : Registry α) (k : Nat) (f g : α → α) :
    (r.modify k f).modify k g = r.modify k fun a => g (f a) := by
  simp only [modify, List.map_map, mk.injEq]
  refine List.map_congr_left fun e _ => ?_
  simp only [Function.comp_apply]
  split <;> rfl

theorem values_insert {r : Registry α} {k : Nat} (h : r.get? k = none) (a : α) :
    (r.insert k a).values = r.values ++ [a] := by
  rw [values, entries_insert h, List.map_append]
  rfl

theorem values_perm {r : Registry α} {k : Nat} {a : α} (h : r.get? k = some a) :
    r.values.Perm (a :: (r.erase k).values) := (entries_perm h).map Prod.snd

theorem values_modify_perm {r : Registry α} {k : Nat} {a : α} (h : r.get? k = some a) (f : α → α) :
    (r.modify k f).values.Perm (f a :: (r.erase k).values) := (entries_modify_perm h f).map Prod.snd

theorem mem_values_iff {r : Registry α} {a : α} : a ∈ r.values ↔ ∃ k, r.get? k = some a := by
  simp [values, get?_eq_some_iff]

end Registry

end HazardLifo
