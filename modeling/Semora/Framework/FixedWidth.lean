import Mathlib.Data.List.Basic
import Mathlib.Tactic.Ring

/-! # Numbers Written in a Fixed Width

    The digits of a number in a base, padded to a width with the most
    significant digit first. In one width, the order of the digit lists is
    the order of the numbers. Separators put at fixed places, and digits
    replaced by signs in the same order, change nothing of that. -/

namespace FixedWidth

/-! ## Section 1: Digits -/

/-- The last `n` digits of `v` in base `b`, the most significant first. -/
def digits (b : Nat) : Nat → Nat → List Nat
  | 0, _ => []
  | n + 1, v => v / b ^ n % b :: digits b n v

/-- The number that digits stand for. -/
def value (b : Nat) (ds : List Nat) : Nat :=
  ds.foldl (fun acc d => acc * b + d) 0

@[simp] theorem length_digits (b n v : Nat) : (digits b n v).length = n := by
  induction n with
  | zero => rfl
  | succ n ih => simp [digits, ih]

theorem lt_of_mem_digits {b : Nat} (hb : 0 < b) {n v d : Nat} (h : d ∈ digits b n v) : d < b := by
  induction n with
  | zero => simp [digits] at h
  | succ n ih =>
    simp only [digits, List.mem_cons] at h
    cases h with
    | inl h => exact h ▸ Nat.mod_lt _ hb
    | inr h => exact ih h

/-- The number modulo `b ^ (n + 1)` is its leading digit and the rest. -/
theorem mod_pow_succ (b n v : Nat) :
    v % b ^ (n + 1) = v / b ^ n % b * b ^ n + v % b ^ n := by
  rw [Nat.pow_succ, Nat.mod_mul]
  ring

theorem foldl_digits (b n v acc : Nat) :
    (digits b n v).foldl (fun acc d => acc * b + d) acc = acc * b ^ n + v % b ^ n := by
  induction n generalizing acc with
  | zero => simp [digits, Nat.mod_one]
  | succ n ih =>
    rw [digits, List.foldl_cons, ih, mod_pow_succ]
    ring

/-- Digits are read back. -/
theorem value_digits (b n v : Nat) : value b (digits b n v) = v % b ^ n := by
  rw [value, foldl_digits]
  simp

/-! ## Section 2: Order -/

/-- A leading part decides before what is below it. -/
theorem lead_lt_iff {p q x y m : Nat} (hx : x < m) (hy : y < m) :
    p * m + x < q * m + y ↔ p < q ∨ p = q ∧ x < y := by
  constructor
  · intro h
    by_cases hpq : p = q
    · subst hpq
      exact Or.inr ⟨rfl, by omega⟩
    · apply Or.inl
      by_contra hlt
      have hstep : (q + 1) * m ≤ p * m := Nat.mul_le_mul_right m (by omega)
      rw [Nat.add_mul] at hstep
      omega
  · intro h
    cases h with
    | inl h =>
      have hstep : (p + 1) * m ≤ q * m := Nat.mul_le_mul_right m h
      rw [Nat.add_mul] at hstep
      omega
    | inr h =>
      rw [h.1]
      omega

/-- The order of the digits is the order of the numbers they show. -/
theorem digits_lt_iff {b : Nat} (hb : 0 < b) (n v w : Nat) :
    digits b n v < digits b n w ↔ v % b ^ n < w % b ^ n := by
  induction n with
  | zero => simp [digits, Nat.mod_one]
  | succ n ih =>
    have hpos : 0 < b ^ n := Nat.pow_pos hb
    rw [digits, digits, List.cons_lt_cons_iff, ih, mod_pow_succ b n v, mod_pow_succ b n w,
      lead_lt_iff (Nat.mod_lt v hpos) (Nat.mod_lt w hpos)]

/-- Lists of one length compare by their heads, then by their tails. -/
theorem append_lt_append_iff {α : Type} [LT α] [Std.Irrefl ((· < ·) : α → α → Prop)]
    {xs ys : List α} (hlen : xs.length = ys.length) (zs ws : List α) :
    xs ++ zs < ys ++ ws ↔ xs < ys ∨ xs = ys ∧ zs < ws := by
  induction xs generalizing ys with
  | nil =>
    have hnil : ys = [] := List.length_eq_zero_iff.mp hlen.symm
    subst hnil
    simp
  | cons x xs ih =>
    cases ys with
    | nil => simp at hlen
    | cons y ys =>
      simp only [List.length_cons, Nat.add_right_cancel_iff] at hlen
      simp only [List.cons_append, List.cons_lt_cons_iff, ih hlen, List.cons.injEq]
      constructor
      · intro h
        obtain h | ⟨h, h' | ⟨h', h''⟩⟩ := h
        · exact Or.inl (Or.inl h)
        · exact Or.inl (Or.inr ⟨h, h'⟩)
        · exact Or.inr ⟨⟨h, h'⟩, h''⟩
      · intro h
        obtain (h | ⟨h, h'⟩) | ⟨⟨h, h'⟩, h''⟩ := h
        · exact Or.inl h
        · exact Or.inr ⟨h, Or.inl h'⟩
        · exact Or.inr ⟨h, Or.inr ⟨h', h''⟩⟩

/-- Signs in the order of what they stand for keep the order of lists. -/
theorem map_lt_map_iff {α β : Type} [LT α] [LT β] (f : α → β) (p : α → Prop)
    (hlt : ∀ a b, p a → p b → (f a < f b ↔ a < b)) (hinj : ∀ a b, p a → p b → f a = f b → a = b)
    {xs ys : List α} (hx : ∀ x ∈ xs, p x) (hy : ∀ y ∈ ys, p y) :
    xs.map f < ys.map f ↔ xs < ys := by
  induction xs generalizing ys with
  | nil => cases ys <;> simp
  | cons x xs ih =>
    cases ys with
    | nil => simp
    | cons y ys =>
      have hxx := hx x (by simp)
      have hyy := hy y (by simp)
      have hrest : xs.map f < ys.map f ↔ xs < ys :=
        ih (fun z hz => hx z (by simp [hz])) fun z hz => hy z (by simp [hz])
      have heq : f x = f y ↔ x = y := ⟨hinj x y hxx hyy, fun h => h ▸ rfl⟩
      simp only [List.map_cons, List.cons_lt_cons_iff, hlt x y hxx hyy, hrest, heq]

/-! ## Section 3: Separators -/

/-- `sep` after each of the widths, and then the rest. -/
def separated {α : Type} (sep : α) : List Nat → List α → List α
  | [], xs => xs
  | w :: ws, xs => xs.take w ++ sep :: separated sep ws (xs.drop w)

variable {α : Type} (sep : α)

theorem length_separated (ws : List Nat) (xs : List α) (h : ws.sum ≤ xs.length) :
    (separated sep ws xs).length = xs.length + ws.length := by
  induction ws generalizing xs with
  | nil => simp [separated]
  | cons w ws ih =>
    rw [List.sum_cons] at h
    have hdrop : ws.sum ≤ (xs.drop w).length := by
      rw [List.length_drop]
      omega
    simp only [separated, List.length_append, List.length_cons, ih _ hdrop, List.length_take,
      List.length_drop]
    omega

/-- Taking the separators out gives the list back, when it holds none of its own. -/
theorem filter_separated [DecidableEq α] (ws : List Nat) (xs : List α) (h : sep ∉ xs) :
    (separated sep ws xs).filter (· ≠ sep) = xs := by
  induction ws generalizing xs with
  | nil =>
    apply List.filter_eq_self.mpr
    intro x hx
    simpa using fun (heq : x = sep) => h (heq ▸ hx)
  | cons w ws ih =>
    have htake : (xs.take w).filter (· ≠ sep) = xs.take w := by
      apply List.filter_eq_self.mpr
      intro x hx
      simpa using fun (heq : x = sep) => h (heq ▸ List.mem_of_mem_take hx)
    have hdrop := ih (xs.drop w) fun hmem => h (List.mem_of_mem_drop hmem)
    rw [separated, List.filter_append, htake, List.filter_cons_of_neg (by simp), hdrop,
      List.take_append_drop]

/-- Separators at the same places change no order. -/
theorem separated_lt_iff [LT α] [Std.Irrefl ((· < ·) : α → α → Prop)] (ws : List Nat)
    {xs ys : List α} (h : xs.length = ys.length) :
    separated sep ws xs < separated sep ws ys ↔ xs < ys := by
  induction ws generalizing xs ys with
  | nil => exact Iff.rfl
  | cons w ws ih =>
    have htake : (xs.take w).length = (ys.take w).length := by
      rw [List.length_take, List.length_take, h]
    have hdrop : (xs.drop w).length = (ys.drop w).length := by
      rw [List.length_drop, List.length_drop, h]
    rw [separated, separated, append_lt_append_iff htake, List.cons_lt_cons_self, ih hdrop,
      ← append_lt_append_iff htake, List.take_append_drop, List.take_append_drop]

end FixedWidth
