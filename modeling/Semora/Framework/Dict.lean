import Mathlib.Data.List.Basic
import Mathlib.Data.List.Nodup

/-! # Insertion-Ordered Dictionaries

    A finite map that remembers the order in which its keys were first
    stored, as Python's `dict` does: storing under a key that is already
    there replaces the value in place, storing under a new key appends.

    The type carries the fact that no key occurs twice, so two lookups
    can never disagree about which item is meant. -/

/-- A finite map in insertion order. -/
structure Dict (κ α : Type) where
  /-- The items, oldest key first. -/
  items : List (κ × α)
  /-- No key is stored twice. -/
  nodup : (items.map Prod.fst).Nodup
  deriving DecidableEq

namespace Dict

variable {κ α : Type}

/-- The dictionary without items. -/
def empty : Dict κ α := ⟨[], List.nodup_nil⟩

instance : Inhabited (Dict κ α) := ⟨empty⟩

variable [DecidableEq κ]

/-- Lookup in an item list. -/
def find (k : κ) : List (κ × α) → Option α
  | [] => none
  | (k', v) :: rest => if k' = k then some v else find k rest

/-- Replace the value under `k` where it is, or append a new item. -/
def put (k : κ) (v : α) : List (κ × α) → List (κ × α)
  | [] => [(k, v)]
  | (k', w) :: rest => if k' = k then (k', v) :: rest else (k', w) :: put k v rest

theorem mem_keys_put {k k' : κ} {v : α} {items : List (κ × α)}
    (h : k' ∈ (put k v items).map Prod.fst) : k' = k ∨ k' ∈ items.map Prod.fst := by
  induction items with
  | nil =>
    simp [put] at h
    exact Or.inl h
  | cons item rest ih =>
    obtain ⟨k₀, w⟩ := item
    by_cases hk : k₀ = k
    · simp only [put, if_pos hk] at h
      exact Or.inr (by simpa using h)
    · simp only [put, if_neg hk, List.map_cons, List.mem_cons] at h
      rcases h with h | h
      · exact Or.inr (by simp [h])
      · rcases ih h with h | h
        · exact Or.inl h
        · exact Or.inr (by simp [h])

theorem nodup_put (k : κ) (v : α) {items : List (κ × α)}
    (h : (items.map Prod.fst).Nodup) : ((put k v items).map Prod.fst).Nodup := by
  induction items with
  | nil => simp [put]
  | cons item rest ih =>
    obtain ⟨k₀, w⟩ := item
    have hrest : (rest.map Prod.fst).Nodup := (List.nodup_cons.mp h).2
    have hfresh : k₀ ∉ rest.map Prod.fst := (List.nodup_cons.mp h).1
    by_cases hk : k₀ = k
    · simp only [put, if_pos hk]
      exact h
    · simp only [put, if_neg hk, List.map_cons]
      refine List.nodup_cons.mpr ⟨?_, ih hrest⟩
      intro hmem
      rcases mem_keys_put hmem with heq | hmem
      · exact hk heq
      · exact hfresh hmem

/-- `d.get(k)`. -/
def get? (d : Dict κ α) (k : κ) : Option α := find k d.items

/-- `d.get(k, default)`. -/
def getD (d : Dict κ α) (k : κ) (default : α) : α := (d.get? k).getD default

/-- `d[k] = v`. -/
def set (d : Dict κ α) (k : κ) (v : α) : Dict κ α :=
  ⟨put k v d.items, nodup_put k v d.nodup⟩

theorem find_put (k k' : κ) (v : α) (items : List (κ × α)) :
    find k' (put k v items) = if k' = k then some v else find k' items := by
  induction items with
  | nil =>
    by_cases h : k' = k
    · simp [put, find, h]
    · simp [put, find, h, Ne.symm h]
  | cons item rest ih =>
    obtain ⟨k₀, w⟩ := item
    by_cases h₀ : k₀ = k
    · by_cases h : k' = k
      · simp [put, find, h₀, h]
      · have hne : ¬ k = k' := fun he => h he.symm
        simp [put, find, h₀, h, hne]
    · by_cases h : k₀ = k'
      · subst h
        simp [put, find, h₀]
      · simp [put, find, h₀, h, ih]

theorem mem_keys_put_self (k : κ) (v : α) (items : List (κ × α)) :
    k ∈ (put k v items).map Prod.fst := by
  induction items with
  | nil => simp [put]
  | cons item rest ih =>
    obtain ⟨k₀, w⟩ := item
    by_cases h : k₀ = k
    · simp [put, h]
    · simp only [put, if_neg h, List.map_cons]
      exact List.mem_cons_of_mem _ ih

theorem mem_keys_set_self (d : Dict κ α) (k : κ) (v : α) :
    k ∈ (d.set k v).items.map Prod.fst :=
  mem_keys_put_self k v d.items

@[simp] theorem get?_empty (k : κ) : (empty : Dict κ α).get? k = none := rfl

theorem get?_set (d : Dict κ α) (k k' : κ) (v : α) :
    (d.set k v).get? k' = if k' = k then some v else d.get? k' :=
  find_put k k' v d.items

@[simp] theorem get?_set_self (d : Dict κ α) (k : κ) (v : α) :
    (d.set k v).get? k = some v := by
  simp [get?_set]

@[simp] theorem get?_set_ne (d : Dict κ α) {k k' : κ} (v : α) (h : k' ≠ k) :
    (d.set k v).get? k' = d.get? k' := by
  simp [get?_set, h]

theorem getD_set (d : Dict κ α) (k k' : κ) (v w : α) :
    (d.set k v).getD k' w = if k' = k then v else d.getD k' w := by
  unfold getD
  rw [get?_set]
  split <;> rfl

/-- What is in a list without repeated keys is found. -/
theorem find_of_mem {items : List (κ × α)} {k : κ} {v : α} (hnodup : (items.map Prod.fst).Nodup)
    (h : (k, v) ∈ items) : find k items = some v := by
  induction items with
  | nil => cases h
  | cons item rest ih =>
    obtain ⟨k₀, w⟩ := item
    obtain ⟨hfresh, hrest⟩ := List.nodup_cons.mp hnodup
    rcases List.mem_cons.mp h with heq | hmem
    · obtain ⟨rfl, rfl⟩ := Prod.mk.inj heq
      exact if_pos rfl
    · have hne : k₀ ≠ k := by
        rintro rfl
        exact hfresh (List.mem_map.mpr ⟨_, hmem, rfl⟩)
      exact (if_neg hne).trans (ih hrest hmem)

theorem mem_of_find {items : List (κ × α)} {k : κ} {v : α} (h : find k items = some v) :
    (k, v) ∈ items := by
  induction items with
  | nil => cases h
  | cons item rest ih =>
    obtain ⟨k₀, w⟩ := item
    by_cases hk : k₀ = k
    · have hfound : find k ((k₀, w) :: rest) = some w := if_pos hk
      rw [hfound] at h
      rw [hk, Option.some.inj h]
      exact List.mem_cons_self
    · have hskip : find k ((k₀, w) :: rest) = find k rest := if_neg hk
      rw [hskip] at h
      exact List.mem_cons_of_mem _ (ih h)

theorem find_eq_some_iff {items : List (κ × α)} {k : κ} {v : α}
    (hnodup : (items.map Prod.fst).Nodup) : find k items = some v ↔ (k, v) ∈ items :=
  ⟨mem_of_find, find_of_mem hnodup⟩

theorem find_eq_none_iff {items : List (κ × α)} {k : κ} :
    find k items = none ↔ k ∉ items.map Prod.fst := by
  induction items with
  | nil => simp [find]
  | cons item rest ih =>
    obtain ⟨k₀, w⟩ := item
    by_cases hk : k₀ = k
    · simp [find, hk]
    · rw [show find k ((k₀, w) :: rest) = find k rest from if_neg hk, ih, List.map_cons,
        List.mem_cons, not_or]
      exact ⟨fun hrest => ⟨Ne.symm hk, hrest⟩, And.right⟩

/-- The order of the items is of no consequence. -/
theorem find_perm {items items' : List (κ × α)} (hperm : items.Perm items')
    (hnodup : (items.map Prod.fst).Nodup) (k : κ) : find k items = find k items' := by
  have hnodup' : (items'.map Prod.fst).Nodup := (hperm.map Prod.fst).nodup_iff.mp hnodup
  refine Option.ext fun v => ?_
  rw [find_eq_some_iff hnodup, find_eq_some_iff hnodup', hperm.mem_iff]

theorem find_map {β : Type} (f : α → β) (items : List (κ × α)) (k : κ) :
    find k (items.map fun item => (item.1, f item.2)) = (find k items).map f := by
  induction items with
  | nil => rfl
  | cons item rest ih =>
    obtain ⟨k₀, w⟩ := item
    by_cases hk : k₀ = k
    · simp [find, hk]
    · simpa [find, hk] using ih

/-- What is stored is found. -/
theorem get?_of_mem {d : Dict κ α} {k : κ} {v : α} (h : (k, v) ∈ d.items) : d.get? k = some v :=
  find_of_mem d.nodup h

theorem get?_ne_none {d : Dict κ α} {k : κ} (h : k ∈ d.items.map Prod.fst) : d.get? k ≠ none := by
  obtain ⟨⟨k', v⟩, hmem, rfl⟩ := List.mem_map.mp h
  rw [get?_of_mem hmem]
  exact Option.some_ne_none v

/-- A part of the values, by looking its keys up. -/
theorem map_snd_filter (d : Dict κ α) (p : κ → Bool) :
    (d.items.filter fun item => p item.1).map Prod.snd
      = ((d.items.map Prod.fst).filter p).filterMap d.get? := by
  have hlook : ∀ items : List (κ × α), (∀ item ∈ items, d.get? item.1 = some item.2) →
      (items.filter fun item => p item.1).map Prod.snd
        = ((items.map Prod.fst).filter p).filterMap d.get? := by
    intro items hitems
    induction items with
    | nil => rfl
    | cons item rest ih =>
      have hrest := ih fun item hitem => hitems item (List.mem_cons_of_mem _ hitem)
      by_cases hp : p item.1 = true
      · simp [hp, hitems item List.mem_cons_self, hrest]
      · simp [hp, hrest]
  exact hlook d.items fun item hitem => get?_of_mem hitem

/-- Storing under a key that is there keeps the order of the keys. -/
theorem keys_set_of_some {d : Dict κ α} {k : κ} {w : α} (h : d.get? k = some w) (v : α) :
    (d.set k v).items.map Prod.fst = d.items.map Prod.fst := by
  have hput : ∀ items : List (κ × α), find k items = some w →
      (put k v items).map Prod.fst = items.map Prod.fst := by
    intro items hfind
    induction items with
    | nil => cases hfind
    | cons item rest ih =>
      obtain ⟨k₀, w₀⟩ := item
      by_cases hk : k₀ = k
      · simp [put, hk]
      · simp only [find, if_neg hk] at hfind
        simp [put, hk, ih hfind]
  exact hput d.items h

/-- A new item is the last one. -/
theorem items_set_of_none {d : Dict κ α} {k : κ} (h : d.get? k = none) (v : α) :
    (d.set k v).items = d.items ++ [(k, v)] := by
  have hput : ∀ items : List (κ × α), find k items = none → put k v items = items ++ [(k, v)] := by
    intro items hfind
    induction items with
    | nil => rfl
    | cons item rest ih =>
      obtain ⟨k₀, w₀⟩ := item
      by_cases hk : k₀ = k
      · simp [find, hk] at hfind
      · simp only [find, if_neg hk] at hfind
        simp [put, hk, ih hfind]
  exact hput d.items h

/-- A new key is the last one. -/
theorem keys_set_of_none {d : Dict κ α} {k : κ} (h : d.get? k = none) (v : α) :
    (d.set k v).items.map Prod.fst = d.items.map Prod.fst ++ [k] := by
  rw [items_set_of_none h, List.map_append]
  rfl

/-- Storing under a known key changes the item of that key alone. -/
theorem forall₂_put {R : κ × α → κ × α → Prop} (hrefl : ∀ item, R item item) {k : κ} {v w : α}
    (hchange : R (k, w) (k, v)) {items : List (κ × α)} (h : find k items = some w) :
    List.Forall₂ R items (put k v items) := by
  induction items with
  | nil => cases h
  | cons item rest ih =>
    obtain ⟨k₀, w₀⟩ := item
    by_cases hk : k₀ = k
    · subst hk
      obtain rfl : w₀ = w := by simpa [find] using h
      simp only [put, if_pos]
      exact .cons hchange (List.forall₂_same.mpr fun item _ => hrefl item)
    · simp only [find, if_neg hk] at h
      simp only [put, if_neg hk]
      exact .cons (hrefl _) (ih h)

/-! ### Parts of a dictionary

    A predicate on keys selects the part of the items it holds for. Storing
    outside the part leaves it alone; storing inside it is storing into it. -/

/-- Items whose key fails `p` are not touched by storing under a key
    that fails it: neither replaced, nor moved, nor joined by a new one. -/
theorem filter_put (p : κ → Bool) {k : κ} (v : α) (hk : p k = false)
    (items : List (κ × α)) :
    (put k v items).filter (fun item => p item.1) = items.filter (fun item => p item.1) := by
  induction items with
  | nil => simp [put, hk]
  | cons item rest ih =>
    obtain ⟨k₀, w⟩ := item
    by_cases h₀ : k₀ = k
    · subst h₀
      simp [put, hk]
    · simp only [put, if_neg h₀, List.filter_cons, ih]

/-- Storing under a key `p` selects stores into the selected part. -/
theorem filter_put_of_mem (p : κ → Bool) {k : κ} (v : α) (hk : p k = true)
    (items : List (κ × α)) :
    (put k v items).filter (fun item => p item.1)
      = put k v (items.filter (fun item => p item.1)) := by
  induction items with
  | nil => simp [put, hk]
  | cons item rest ih =>
    obtain ⟨k₀, w⟩ := item
    by_cases h₀ : k₀ = k
    · subst h₀
      simp [put, hk]
    · by_cases hp : p k₀ = true
      · simp only [put, if_neg h₀, List.filter_cons, if_pos hp, ih]
      · simp only [put, if_neg h₀, List.filter_cons, if_neg hp, ih]

/-- Looking a selected key up in the selected part finds what the whole holds. -/
theorem find_filter (p : κ → Bool) {k : κ} (hk : p k = true) (items : List (κ × α)) :
    find k (items.filter (fun item => p item.1)) = find k items := by
  induction items with
  | nil => rfl
  | cons item rest ih =>
    obtain ⟨k₀, w⟩ := item
    by_cases h₀ : k₀ = k
    · subst h₀
      simp [find, hk]
    · by_cases hp : p k₀ = true
      · simp only [List.filter_cons, if_pos hp, find, if_neg h₀, ih]
      · simp only [List.filter_cons, if_neg hp, find, if_neg h₀, ih]

/-! ## Many items at once -/

/-- `d.update(items)`. -/
def update (d : Dict κ α) (items : List (κ × α)) : Dict κ α :=
  items.foldl (fun d item => d.set item.1 item.2) d

/-- `{k: v for k, v in items}`. -/
def ofList (items : List (κ × α)) : Dict κ α := empty.update items

theorem get?_update {items : List (κ × α)} (hnodup : (items.map Prod.fst).Nodup) (d : Dict κ α)
    (k : κ) : (d.update items).get? k = (find k items).or (d.get? k) := by
  induction items generalizing d with
  | nil => rfl
  | cons item rest ih =>
    obtain ⟨k₀, v⟩ := item
    obtain ⟨hfresh, hrest⟩ := List.nodup_cons.mp hnodup
    show ((d.set k₀ v).update rest).get? k = _
    rw [ih hrest, get?_set]
    by_cases hk : k₀ = k
    · subst hk
      have hnone : find k₀ rest = none := find_eq_none_iff.mpr hfresh
      simp [find, hnone]
    · simp [find, hk, Ne.symm hk]

theorem get?_ofList {items : List (κ × α)} (hnodup : (items.map Prod.fst).Nodup) (k : κ) :
    (ofList items).get? k = find k items := by
  unfold ofList
  rw [get?_update hnodup, get?_empty, Option.or_none]

/-- A list of the keys that have a value, with their values. -/
theorem find_filterMap (f : κ → Option α) (keys : List κ) (k : κ) :
    find k (keys.filterMap fun key => (f key).map fun v => (key, v))
      = if k ∈ keys then f k else none := by
  induction keys with
  | nil => rfl
  | cons key keys ih =>
    cases hf : f key with
    | none =>
      rw [List.filterMap_cons_none (by rw [hf]; rfl), ih]
      by_cases hk : k = key
      · subst hk
        simp [hf]
      · simp [hk]
    | some v =>
      rw [List.filterMap_cons_some (b := (key, v)) (by rw [hf]; rfl)]
      by_cases hk : key = k
      · subst hk
        simp [find, hf]
      · simp [find, hk, ih, Ne.symm hk]

omit [DecidableEq κ] in
theorem nodup_filterMap (f : κ → Option α) {keys : List κ} (hnodup : keys.Nodup) :
    ((keys.filterMap fun key => (f key).map fun v => (key, v)).map Prod.fst).Nodup := by
  refine List.Nodup.sublist ?_ hnodup
  induction keys with
  | nil => exact List.Sublist.refl _
  | cons key keys ih =>
    have hrest := ih (List.nodup_cons.mp hnodup).2
    cases hf : f key with
    | none =>
      rw [List.filterMap_cons_none (by rw [hf]; rfl)]
      exact hrest.cons key
    | some v =>
      rw [List.filterMap_cons_some (b := (key, v)) (by rw [hf]; rfl)]
      exact hrest.cons_cons key

/-- A dictionary of what is seen of items, when no two of them are seen under one key. -/
theorem get?_ofList_filterMap {ι : Type} {items : List ι} (hnodup : items.Nodup)
    {view : ι → Option (κ × α)}
    (hview : ∀ i ∈ items, ∀ j ∈ items, ∀ k v w, view i = some (k, v) → view j = some (k, w) → i = j)
    (k : κ) (v : α) :
    (ofList (items.filterMap view)).get? k = some v ↔ ∃ i ∈ items, view i = some (k, v) := by
  have hkeys : ((items.filterMap view).map Prod.fst).Nodup := by
    rw [List.map_filterMap]
    refine List.pairwise_filterMap.mpr (hnodup.imp_of_mem fun {i j} hi hj hne => ?_)
    intro k hk k' hk' heq
    subst heq
    obtain ⟨⟨_, v⟩, hv, rfl⟩ := Option.map_eq_some_iff.mp hk
    obtain ⟨⟨k, w⟩, hw, rfl⟩ := Option.map_eq_some_iff.mp hk'
    exact hne (hview i hi j hj _ v w hv hw)
  rw [get?_ofList hkeys, find_eq_some_iff hkeys, List.mem_filterMap]

end Dict
