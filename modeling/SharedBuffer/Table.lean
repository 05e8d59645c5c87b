/-!
Tables: values under names, each name at most once. Main statement: a name finds what was last put
under it, and another name finds what it found before.
-/

namespace SharedBuffer

abbrev Table (α : Type) := List (String × α)

namespace Table

variable {α : Type}

def find? (name : String) : Table α → Option α
  | [] => none
  | (key, value) :: rest => if key = name then some value else find? name rest

def put (name : String) (value : α) : Table α → Table α
  | [] => [(name, value)]
  | (key, old) :: rest =>
    if key = name then (name, value) :: rest else (key, old) :: put name value rest

def erase (name : String) (t : Table α) : Table α := t.filter fun entry => entry.1 != name

theorem find?_put_self (name : String) (value : α) (t : Table α) :
    find? name (put name value t) = some value := by
  induction t with
  | nil => simp [put, find?]
  | cons entry rest ih =>
    rw [put]
    split
    · simp [find?]
    · next h => rw [find?, if_neg h, ih]

theorem find?_put_of_ne {name other : String} (h : name ≠ other) (value : α) (t : Table α) :
    find? other (put name value t) = find? other t := by
  induction t with
  | nil => simp [put, find?, h]
  | cons entry rest ih =>
    rw [put]
    split
    · next hk => simp [find?, h, hk]
    · simp only [find?, ih]

theorem find?_erase_of_ne {name other : String} (h : name ≠ other) (t : Table α) :
    find? other (erase name t) = find? other t := by
  induction t with
  | nil => rfl
  | cons entry rest ih =>
    by_cases hk : entry.1 = name
    · rw [erase, List.filter_cons_of_neg (by simp [hk]), ← erase, ih, find?,
        if_neg (by rw [hk]; exact h)]
    · rw [erase, List.filter_cons_of_pos (by simp [hk]), ← erase, find?, find?, ih]

theorem mem_of_find? {name : String} {value : α} {t : Table α} (h : find? name t = some value) :
    (name, value) ∈ t := by
  induction t with
  | nil => cases h
  | cons entry rest ih =>
    rw [find?] at h
    split at h
    · next hk =>
      cases h
      rw [← hk]
      exact List.mem_cons_self
    · exact List.mem_cons_of_mem _ (ih h)

theorem put_of_find? {name : String} {value : α} {t : Table α} (h : find? name t = some value) :
    put name value t = t := by
  induction t with
  | nil => cases h
  | cons entry rest ih =>
    rw [find?] at h
    rw [put]
    split at h
    · next hk =>
      cases h
      rw [if_pos hk, ← hk]
    · next hk => rw [if_neg hk, ih h]

theorem put_put (name : String) (value last : α) (t : Table α) :
    put name last (put name value t) = put name last t := by
  induction t with
  | nil => simp [put]
  | cons entry rest ih =>
    simp only [put]
    split
    · simp [put]
    · next h => rw [put, if_neg h, ih]

theorem put_comm {name other : String} {old : α} {t : Table α} (h : find? name t = some old)
    (hne : other ≠ name) (value more : α) :
    put other more (put name value t) = put name value (put other more t) := by
  induction t with
  | nil => cases h
  | cons entry rest ih =>
    obtain ⟨key, first⟩ := entry
    rw [find?] at h
    by_cases hk : key = name
    · rw [put, if_pos hk, put, if_neg (Ne.symm hne), put, if_neg (hk ▸ Ne.symm hne), put, if_pos hk]
    · rw [if_neg hk] at h
      rw [put, if_neg hk]
      by_cases ho : key = other
      · rw [put, if_pos ho, put, if_pos ho, put, if_neg hne]
      · rw [put, if_neg ho, put, if_neg ho, put, if_neg hk, ih h]

theorem any_put_of_find? {name : String} {old value : α} {t : Table α} {f : String × α → Bool}
    (h : find? name t = some old) (hf : f (name, value) = f (name, old)) :
    (put name value t).any f = t.any f := by
  induction t with
  | nil => cases h
  | cons entry rest ih =>
    obtain ⟨key, first⟩ := entry
    rw [find?] at h
    rw [put]
    split at h
    · next hk =>
      cases h
      rw [if_pos hk, List.any_cons, List.any_cons, hf, hk]
    · next hk => rw [if_neg hk, List.any_cons, List.any_cons, ih h]

theorem mem_put {name : String} {value : α} {t : Table α} {entry : String × α}
    (h : entry ∈ put name value t) : entry = (name, value) ∨ entry ∈ t := by
  induction t with
  | nil => exact .inl (List.mem_singleton.1 h)
  | cons first rest ih =>
    rw [put] at h
    split at h
    · rcases List.mem_cons.1 h with h | h
      · exact .inl h
      · exact .inr (List.mem_cons_of_mem _ h)
    · rcases List.mem_cons.1 h with h | h
      · exact .inr (h ▸ List.mem_cons_self)
      · exact (ih h).imp id (List.mem_cons_of_mem _)

theorem any_put_others (name : String) (value : α) (f : String × α → Bool) (t : Table α) :
    ((put name value t).any fun entry => entry.1 != name && f entry) =
      t.any fun entry => entry.1 != name && f entry := by
  induction t with
  | nil => simp [put]
  | cons entry rest ih =>
    rw [put]
    split
    · next h => simp [h]
    · rw [List.any_cons, List.any_cons, ih]

def Distinct (t : Table α) : Prop := (t.map Prod.fst).Nodup

theorem find?_of_mem {name : String} {value : α} {t : Table α} (hd : t.Distinct)
    (h : (name, value) ∈ t) : find? name t = some value := by
  induction t with
  | nil => cases h
  | cons entry rest ih =>
    obtain ⟨hfresh, hd⟩ := List.nodup_cons.1 hd
    rw [find?]
    rcases List.mem_cons.1 h with h | h
    · rw [← h, if_pos rfl]
    · rw [if_neg, ih hd h]
      intro hk
      exact hfresh (List.mem_map.2 ⟨_, h, hk.symm⟩)

theorem ne_of_mem_put {name : String} {value : α} {t : Table α} (hd : t.Distinct)
    {entry : String × α} (h : entry ∈ put name value t) :
    entry = (name, value) ∨ (entry ∈ t ∧ entry.1 ≠ name) := by
  induction t with
  | nil => exact .inl (List.mem_singleton.1 h)
  | cons first rest ih =>
    obtain ⟨hfresh, hd⟩ := List.nodup_cons.1 hd
    rw [put] at h
    split at h
    · next hk =>
      rcases List.mem_cons.1 h with h | h
      · exact .inl h
      · refine .inr ⟨List.mem_cons_of_mem _ h, fun hname => ?_⟩
        exact hfresh (List.mem_map.2 ⟨entry, h, hname.trans hk.symm⟩)
    · next hk =>
      rcases List.mem_cons.1 h with rfl | h
      · exact .inr ⟨List.mem_cons_self, hk⟩
      · exact (ih hd h).imp id fun hold => ⟨List.mem_cons_of_mem _ hold.1, hold.2⟩

theorem mem_erase_iff {name : String} {t : Table α} {entry : String × α} :
    entry ∈ erase name t ↔ entry ∈ t ∧ entry.1 ≠ name := by
  simp [erase]

theorem mem_put_self (name : String) (value : α) (t : Table α) : (name, value) ∈ put name value t :=
  mem_of_find? (find?_put_self name value t)

theorem mem_put_of_ne {name : String} (value : α) {t : Table α} {entry : String × α}
    (h : entry ∈ t) (hne : entry.1 ≠ name) : entry ∈ put name value t := by
  induction t with
  | nil => cases h
  | cons first rest ih =>
    rw [put]
    rcases List.mem_cons.1 h with rfl | h
    · rw [if_neg hne]
      exact List.mem_cons_self
    · split
      · exact List.mem_cons_of_mem _ h
      · exact List.mem_cons_of_mem _ (ih h)

theorem distinct_put {t : Table α} (hd : t.Distinct) (name : String) (value : α) :
    (put name value t).Distinct := by
  induction t with
  | nil => simp [put, Distinct]
  | cons entry rest ih =>
    obtain ⟨hfresh, hd⟩ := List.nodup_cons.1 hd
    rw [put]
    split
    · next hk =>
      rw [hk] at hfresh
      exact List.nodup_cons.2 ⟨hfresh, hd⟩
    · next hk =>
      refine List.nodup_cons.2 ⟨?_, ih hd⟩
      intro hmem
      obtain ⟨other, hother, hname⟩ := List.mem_map.1 hmem
      rcases mem_put hother with rfl | hother
      · exact hk hname.symm
      · exact hfresh (List.mem_map.2 ⟨other, hother, hname⟩)

theorem distinct_erase {t : Table α} (hd : t.Distinct) (name : String) : (erase name t).Distinct :=
  hd.sublist (List.filter_sublist.map Prod.fst)

end Table

end SharedBuffer
