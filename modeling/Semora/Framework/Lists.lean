import Mathlib.Data.List.Sort

/-! # Lists

    What Python's lists and SQL's result sets do and Mathlib has no word for.

    * `sliceFrom`: `xs[start:]`, where a negative start counts from the end.
    * `lastUpTo`: the newest tail, as `order by … desc limit …` takes it.
    * `firstBy`: the first item of every key, as insertion under a unique key
      keeps it. -/

namespace List

variable {α κ : Type}

/-- Item by item, what is transitive is so along lists. -/
theorem forall₂_trans {R : α → α → Prop} (htrans : ∀ x y z, R x y → R y z → R x z)
    {xs ys zs : List α} (h : Forall₂ R xs ys) (h' : Forall₂ R ys zs) : Forall₂ R xs zs := by
  induction h generalizing zs with
  | nil => exact h'
  | cons hxy h ih =>
    cases h' with
    | cons hyz h' => exact .cons (htrans _ _ _ hxy hyz) (ih h')

theorem forall₂_mem_right {β : Type} {R : α → β → Prop} {xs : List α} {ys : List β}
    (h : Forall₂ R xs ys) {y : β} (hy : y ∈ ys) : ∃ x ∈ xs, R x y := by
  induction h with
  | nil => cases hy
  | cons hxy _ ih =>
    rcases mem_cons.mp hy with rfl | hy
    · exact ⟨_, mem_cons_self, hxy⟩
    · obtain ⟨x, hx, hxy⟩ := ih hy
      exact ⟨x, mem_cons_of_mem _ hx, hxy⟩

/-! ## Section 1: Sorting -/

/-- Sorting leaves alone what is in order behind the rest. -/
theorem insertionSort_append (r : α → α → Prop) [DecidableRel r] {front back : List α}
    (hback : back.Pairwise r) (h : ∀ a ∈ front, ∀ b ∈ back, r a b) :
    (front ++ back).insertionSort r = front.insertionSort r ++ back := by
  have hinsert : ∀ (a : α) (items : List α), (∀ b ∈ back, r a b) →
      List.orderedInsert r a (items ++ back) = List.orderedInsert r a items ++ back := by
    intro a items hle
    induction items with
    | nil =>
      cases back with
      | nil => rfl
      | cons b rest => simp [List.orderedInsert, hle b List.mem_cons_self]
    | cons item items ih =>
      simp only [List.cons_append, List.orderedInsert, ih]
      split <;> rfl
  induction front with
  | nil => exact hback.insertionSort_eq
  | cons a front ih =>
    simp only [List.cons_append, List.insertionSort_cons]
    rw [ih fun b hb => h b (List.mem_cons_of_mem _ hb)]
    exact hinsert a _ (h a List.mem_cons_self)

/-- Sorting turns around what is in the opposite order. -/
theorem insertionSort_eq_reverse (r : α → α → Prop) [DecidableRel r] {items : List α}
    (h : items.Pairwise fun a b => ¬ r a b) : items.insertionSort r = items.reverse := by
  have hinsert : ∀ (a : α) (items : List α), (∀ b ∈ items, ¬ r a b) →
      List.orderedInsert r a items = items ++ [a] := by
    intro a items hnot
    induction items with
    | nil => rfl
    | cons b rest ih =>
      simp only [List.orderedInsert, if_neg (hnot b List.mem_cons_self), List.cons_append]
      rw [ih fun c hc => hnot c (List.mem_cons_of_mem _ hc)]
  induction items with
  | nil => rfl
  | cons a rest ih =>
    obtain ⟨ha, hrest⟩ := List.pairwise_cons.mp h
    rw [List.insertionSort_cons, ih hrest, List.reverse_cons]
    exact hinsert a _ fun b hb => ha b (List.mem_reverse.mp hb)

/-! ## Section 2: Tails -/

/-- `xs[start:]`. -/
def sliceFrom (xs : List α) (start : Int) : List α :=
  if start < 0 then xs.drop (xs.length + start).toNat else xs.drop start.toNat

/-- The last `n` items. -/
def lastUpTo (n : Nat) (xs : List α) : List α := xs.drop (xs.length - n)

theorem map_lastUpTo {β : Type} (f : α → β) (n : Nat) (xs : List α) :
    (lastUpTo n xs).map f = lastUpTo n (xs.map f) := by
  unfold lastUpTo
  rw [map_drop, length_map]

theorem map_sliceFrom {β : Type} (f : α → β) (start : Int) (xs : List α) :
    (sliceFrom xs start).map f = sliceFrom (xs.map f) start := by
  unfold sliceFrom
  rw [length_map]
  split <;> rw [map_drop]

/-- The tail is what is first from the end. -/
theorem reverse_take_reverse (n : Nat) (xs : List α) :
    (xs.reverse.take n).reverse = lastUpTo n xs := by
  unfold lastUpTo
  rw [take_reverse, reverse_reverse]

/-- A slice from the length less `n` is the tail of `n`, but when `n` is longer than the list and
    not twice as long. -/
theorem sliceFrom_eq_lastUpTo_iff (n : Nat) (xs : List α) :
    xs.sliceFrom (xs.length - n) = lastUpTo n xs ↔ n ≤ xs.length ∨ 2 * xs.length ≤ n := by
  unfold sliceFrom lastUpTo
  constructor
  · intro heq
    by_cases hneg : (xs.length - n : Int) < 0
    · rw [if_pos hneg] at heq
      have hlength := congrArg length heq
      rw [length_drop, length_drop] at hlength
      omega
    · omega
  · rintro (hle | hle)
    · rw [if_neg (by omega)]
      congr 1
      omega
    · by_cases hneg : (xs.length - n : Int) < 0
      · rw [if_pos hneg]
        congr 1
        omega
      · rw [if_neg hneg]
        congr 1
        omega

/-! ## Section 3: Unique keys -/

variable [DecidableEq κ] (key : α → κ)

/-- The first item of every key. -/
def firstBy : List α → List α
  | [] => []
  | item :: rest => item :: (firstBy rest).filter fun other => key other ≠ key item

theorem firstBy_sublist (items : List α) : firstBy key items <+ items := by
  induction items with
  | nil => exact Sublist.refl _
  | cons item rest ih => exact (filter_sublist.trans ih).cons_cons item

theorem nodup_firstBy (items : List α) : ((firstBy key items).map key).Nodup := by
  induction items with
  | nil => exact nodup_nil
  | cons item rest ih =>
    unfold firstBy
    rw [map_cons, nodup_cons]
    refine ⟨fun hmem => ?_, ih.sublist (filter_sublist.map key)⟩
    obtain ⟨other, hother, heq⟩ := mem_map.mp hmem
    exact of_decide_eq_true (mem_filter.mp hother).2 heq

/-- What looks at the keys alone can be asked before or after. -/
theorem firstBy_filter (p : κ → Bool) (items : List α) :
    firstBy key (items.filter fun item => p (key item))
      = (firstBy key items).filter fun item => p (key item) := by
  induction items with
  | nil => rfl
  | cons item rest ih =>
    simp only [firstBy, filter_cons]
    by_cases hp : p (key item) = true
    · rw [if_pos hp, if_pos hp]
      show item :: (firstBy key (rest.filter fun item => p (key item))).filter _ = _
      rw [ih, filter_comm]
    · rw [if_neg hp, if_neg hp, ih, filter_filter]
      refine filter_congr fun other _ => ?_
      have hother : p (key other) = true → key other ≠ key item :=
        fun hyes heq => hp (heq ▸ hyes)
      by_cases hyes : p (key other) <;> simp [hyes, hother]

theorem mem_keys_firstBy {items : List α} {k : κ} :
    k ∈ (firstBy key items).map key ↔ k ∈ items.map key := by
  induction items with
  | nil => rfl
  | cons item rest ih =>
    unfold firstBy
    rw [map_cons, map_cons, mem_cons, mem_cons, ← ih]
    by_cases hk : k = key item
    · simp [hk]
    · refine or_congr_right ⟨fun hmem => ?_, fun hmem => ?_⟩
      · exact (filter_sublist.map key).subset hmem
      · obtain ⟨other, hother, rfl⟩ := mem_map.mp hmem
        exact mem_map_of_mem (mem_filter.mpr ⟨hother, decide_eq_true hk⟩)

/-- One more item: it is kept when its key is new. -/
theorem firstBy_concat (items : List α) (item : α) :
    firstBy key (items ++ [item]) =
      if key item ∈ items.map key then firstBy key items else firstBy key items ++ [item] := by
  induction items with
  | nil => rfl
  | cons first rest ih =>
    rw [cons_append]
    unfold firstBy
    rw [ih, map_cons]
    by_cases hfirst : key item = key first
    · have hmem : key item ∈ key first :: rest.map key := by
        rw [hfirst]
        exact mem_cons_self
      rw [if_pos hmem]
      split
      · rfl
      · rw [filter_append, filter_cons_of_neg (by simp [hfirst])]
        simp
    · have hmem : key item ∈ key first :: rest.map key ↔ key item ∈ rest.map key := by
        simp [hfirst]
      by_cases hrest : key item ∈ rest.map key
      · rw [if_pos hrest, if_pos (hmem.mpr hrest)]
      · rw [if_neg hrest, if_neg (fun h => hrest (hmem.mp h)), filter_append,
          filter_cons_of_pos (by simpa using hfirst)]
        simp

omit [DecidableEq κ] in
/-- Where keys are unique, lists with the same keys are the same. -/
theorem eq_of_map_eq_of_nodup {f : α → κ} {l xs ys : List α} (hnodup : (l.map f).Nodup)
    (hxs : ∀ x ∈ xs, x ∈ l) (hys : ∀ y ∈ ys, y ∈ l) (h : xs.map f = ys.map f) : xs = ys := by
  induction xs generalizing ys with
  | nil => exact (List.map_eq_nil_iff.mp h.symm).symm
  | cons x xs ih =>
    cases ys with
    | nil => cases h
    | cons y ys =>
      obtain ⟨hhead, htail⟩ := List.cons.inj h
      have hxy : x = y := List.inj_on_of_nodup_map hnodup (hxs x List.mem_cons_self)
        (hys y List.mem_cons_self) hhead
      rw [hxy, ih (fun z hz => hxs z (List.mem_cons_of_mem _ hz))
        (fun z hz => hys z (List.mem_cons_of_mem _ hz)) htail]

end List
