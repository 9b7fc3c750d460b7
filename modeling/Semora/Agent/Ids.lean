import Semora.Framework.FixedWidth
import Semora.Framework.JsonText
import Semora.Agent.Operations

/-! # Branch Identifiers

    `new_branch_id` hand-rolls a UUIDv7 behind a prefix: the milliseconds of
    the clock over 74 random bits, with the version and the variant at their
    fixed places. Its promise is the order: ids of one prefix sort by the
    millisecond they were made in, and within one by their random bits. -/

namespace Semora

open FixedWidth
open JsonTree (hexDigit hexVal hexVal_hexDigit)

/-! ## Section 1: UUIDs -/

/-- A `UUID`: 128 bits. -/
structure Uuid where
  int : Nat
  bounded : int < 1 <<< 128

namespace Uuid

/-- `UUID(int=value)`. -/
def ofInt (value : Nat) : Except Raised Uuid :=
  if h : value < 1 <<< 128 then .ok ⟨value, h⟩
  else .error (.valueError "int is out of range (need a 128-bit value)")

/-- `"%032x" % int`. -/
def hex (u : Uuid) : List Char := (digits 16 32 u.int).map hexDigit

/-- `str(uuid)`: the digits in groups of 8, 4, 4, 4 and 12. -/
def str (u : Uuid) : List Char := separated '-' [8, 4, 4, 4] u.hex

/-- `int(text.replace("-", ""), 16)`: what a reader of the text makes of it. -/
def read (text : List Char) : Nat := value 16 ((text.filter (· ≠ '-')).map hexVal)

end Uuid

/-! ## Section 2: `new_branch_id` -/

/-- `int.from_bytes(bytes, "big")`. -/
def fromBytes (bytes : List UInt8) : Nat := value 256 (bytes.map UInt8.toNat)

/-- The bits of the id, by their places. -/
def branchBits (millis rand : Nat) : Nat :=
  millis <<< 80 ||| 0x7 <<< 76 ||| ((rand >>> 64) &&& 0x0FFF) <<< 64 ||| 0b10 <<< 62
    ||| (rand &&& ((1 <<< 62) - 1))

/-- `new_branch_id`; `nanos` is `time.time_ns()`, `urandom` is `os.urandom(10)`. -/
def newBranchId (pre : String) (nanos : Nat) (urandom : List UInt8) : Except Raised String := do
  let millis := nanos / 1000000
  let rand := fromBytes urandom
  let uuid ← Uuid.ofInt (branchBits millis rand)
  pure (pre ++ "-" ++ String.ofList uuid.str)

/-- The 74 random bits an id keeps, the 12 above the variant first. -/
def keptBits (urandom : List UInt8) : Nat :=
  fromBytes urandom / 2 ^ 64 % 2 ^ 12 * 2 ^ 62 + fromBytes urandom % 2 ^ 62

/-- A version-7 UUID of a millisecond, read from the top: the first 48 bits
    are the millisecond, then the version, 12 random bits, the variant and
    the 62 other random bits. -/
structure Uuid.IsVersion7 (u : Uuid) (millis rand : Nat) : Prop where
  millis_eq : u.int / 2 ^ 80 = millis
  version : u.int / 2 ^ 76 % 2 ^ 4 = 7
  variant : u.int / 2 ^ 62 % 2 ^ 2 = 2
  rand_eq : u.int / 2 ^ 64 % 2 ^ 12 * 2 ^ 62 + u.int % 2 ^ 62 = rand

/-! ## Section 3: The text of a UUID -/

namespace Uuid

theorem lt_two_pow (u : Uuid) : u.int < 16 ^ 32 := by
  have h := u.bounded
  rw [Nat.one_shiftLeft] at h
  exact lt_of_lt_of_eq h (by norm_num)

theorem hexDigit_lt_iff (a b : Nat) (ha : a < 16) (hb : b < 16) :
    hexDigit a < hexDigit b ↔ a < b := by
  have hall : ∀ a b : Fin 16, (hexDigit a < hexDigit b ↔ a < b) := by decide
  exact hall ⟨a, ha⟩ ⟨b, hb⟩

theorem hexDigit_inj (a b : Nat) (ha : a < 16) (hb : b < 16) (h : hexDigit a = hexDigit b) :
    a = b := by
  rw [← hexVal_hexDigit ha, h, hexVal_hexDigit hb]

theorem hexDigit_ne_dash (a : Nat) (ha : a < 16) : hexDigit a ≠ '-' := by
  have hall : ∀ a : Fin 16, hexDigit a ≠ '-' := by decide
  exact hall ⟨a, ha⟩

@[simp] theorem length_hex (u : Uuid) : u.hex.length = 32 := by simp [hex]

theorem dash_not_mem_hex (u : Uuid) : '-' ∉ u.hex := by
  intro h
  obtain ⟨d, hd, heq⟩ := List.mem_map.mp h
  exact hexDigit_ne_dash d (lt_of_mem_digits (by omega) hd) heq

theorem length_str (u : Uuid) : u.str.length = 36 := by
  rw [str, length_separated _ _ _ (by simp)]
  simp

/-- The text of a UUID is read as the UUID. -/
theorem read_str (u : Uuid) : read u.str = u.int := by
  have hvals : u.hex.map hexVal = digits 16 32 u.int := by
    have hback : ∀ d ∈ digits 16 32 u.int, (hexVal ∘ hexDigit) d = d :=
      fun d hd => hexVal_hexDigit (lt_of_mem_digits (by omega) hd)
    rw [hex, List.map_map, List.map_congr_left hback]
    exact List.map_id _
  rw [read, str, filter_separated '-' _ _ u.dash_not_mem_hex, hvals, value_digits,
    Nat.mod_eq_of_lt u.lt_two_pow]

/-- The texts of UUIDs sort as the numbers do. -/
theorem str_lt_iff (u v : Uuid) : u.str < v.str ↔ u.int < v.int := by
  have hdigits : ∀ w : Uuid, ∀ d ∈ digits 16 32 w.int, d < 16 :=
    fun w d hd => lt_of_mem_digits (by omega) hd
  rw [str, str, separated_lt_iff _ _ (by simp), hex, hex,
    map_lt_map_iff hexDigit (· < 16) hexDigit_lt_iff hexDigit_inj (hdigits u) (hdigits v),
    digits_lt_iff (by omega), Nat.mod_eq_of_lt u.lt_two_pow, Nat.mod_eq_of_lt v.lt_two_pow]

end Uuid

/-! ## Section 4: The bits of an id -/

/-- A field is put below what is there. -/
theorem or_field {field : Nat} (width : Nat) (h : field < 2 ^ width) (above place : Nat) :
    above <<< (place + width) ||| field <<< place = (above * 2 ^ width + field) <<< place := by
  rw [Nat.add_comm place width, Nat.shiftLeft_add, ← Nat.shiftLeft_or_distrib,
    ← Nat.shiftLeft_add_eq_or_of_lt h, Nat.shiftLeft_eq above width]

/-- The fields one below the other: none reaches into the next. -/
theorem branchBits_eq (millis rand : Nat) :
    branchBits millis rand
      = (((millis * 2 ^ 4 + 7) * 2 ^ 12 + rand / 2 ^ 64 % 2 ^ 12) * 2 ^ 2 + 2) * 2 ^ 62
        + rand % 2 ^ 62 := by
  have hhigh : (rand >>> 64) &&& 0x0FFF = rand / 2 ^ 64 % 2 ^ 12 := by
    rw [Nat.shiftRight_eq_div_pow, ← Nat.and_two_pow_sub_one_eq_mod]
  have hlow : rand &&& ((1 <<< 62) - 1) = rand % 2 ^ 62 := by
    rw [Nat.one_shiftLeft, Nat.and_two_pow_sub_one_eq_mod]
  have hrandom : rand / 2 ^ 64 % 2 ^ 12 < 2 ^ 12 := Nat.mod_lt _ (by omega)
  rw [branchBits, hhigh, hlow, or_field 4 (by omega) millis 76,
    or_field 12 hrandom _ 64, or_field 2 (by omega) _ 62,
    ← Nat.shiftLeft_add_eq_or_of_lt (Nat.mod_lt rand (by omega)), Nat.shiftLeft_eq]

/-- The number of an id sorts by the millisecond, then by the bits kept. -/
theorem branchBits_lt_iff (millis millis' : Nat) (urandom urandom' : List UInt8) :
    branchBits millis (fromBytes urandom) < branchBits millis' (fromBytes urandom') ↔
      millis < millis' ∨ millis = millis' ∧ keptBits urandom < keptBits urandom' := by
  rw [branchBits_eq, branchBits_eq, keptBits, keptBits]
  have hlow : fromBytes urandom % 2 ^ 62 < 2 ^ 62 := Nat.mod_lt _ (by omega)
  have hlow' : fromBytes urandom' % 2 ^ 62 < 2 ^ 62 := Nat.mod_lt _ (by omega)
  have hhigh : fromBytes urandom / 2 ^ 64 % 2 ^ 12 < 2 ^ 12 := Nat.mod_lt _ (by omega)
  have hhigh' : fromBytes urandom' / 2 ^ 64 % 2 ^ 12 < 2 ^ 12 := Nat.mod_lt _ (by omega)
  generalize fromBytes urandom / 2 ^ 64 % 2 ^ 12 = a at *
  generalize fromBytes urandom' / 2 ^ 64 % 2 ^ 12 = a' at *
  generalize fromBytes urandom % 2 ^ 62 = b at *
  generalize fromBytes urandom' % 2 ^ 62 = b' at *
  omega

/-- An id can be made until the clock has outgrown its 48 bits. -/
theorem branchBits_fits_iff (millis rand : Nat) :
    branchBits millis rand < 1 <<< 128 ↔ millis < 2 ^ 48 := by
  rw [branchBits_eq, Nat.one_shiftLeft]
  have hlow : rand % 2 ^ 62 < 2 ^ 62 := Nat.mod_lt _ (by omega)
  have hhigh : rand / 2 ^ 64 % 2 ^ 12 < 2 ^ 12 := Nat.mod_lt _ (by omega)
  generalize rand / 2 ^ 64 % 2 ^ 12 = a at *
  generalize rand % 2 ^ 62 = b at *
  omega

/-! ## Section 5: The ids -/

/-- What `new_branch_id` does: the UUID of its bits behind the prefix, or no id at all. -/
theorem newBranchId_cases (pre : String) (nanos : Nat) (urandom : List UInt8) :
    (nanos / 1000000 < 2 ^ 48 ∧ ∃ u : Uuid,
      u.int = branchBits (nanos / 1000000) (fromBytes urandom) ∧
      newBranchId pre nanos urandom = .ok (pre ++ "-" ++ String.ofList u.str)) ∨
    (2 ^ 48 ≤ nanos / 1000000 ∧ newBranchId pre nanos urandom
      = .error (.valueError "int is out of range (need a 128-bit value)")) := by
  by_cases h : branchBits (nanos / 1000000) (fromBytes urandom) < 1 <<< 128
  · apply Or.inl
    refine ⟨(branchBits_fits_iff _ _).mp h, ⟨_, h⟩, rfl, ?_⟩
    simp only [newBranchId, Uuid.ofInt, dif_pos h]
    rfl
  · apply Or.inr
    constructor
    · have hfits := (branchBits_fits_iff (nanos / 1000000) (fromBytes urandom)).not.mp h
      omega
    · simp only [newBranchId, Uuid.ofInt, dif_neg h]
      rfl

theorem of_newBranchId {pre : String} {nanos : Nat} {urandom : List UInt8} {id : String}
    (h : newBranchId pre nanos urandom = .ok id) :
    ∃ u : Uuid, u.int = branchBits (nanos / 1000000) (fromBytes urandom) ∧
      id = pre ++ "-" ++ String.ofList u.str := by
  obtain ⟨-, u, hint, hid⟩ | ⟨-, herror⟩ := newBranchId_cases pre nanos urandom
  · exact ⟨u, hint, Except.ok.inj (h.symm.trans hid)⟩
  · rw [herror] at h
    cases h

/-- The bits an id is made of are those of a version-7 UUID. -/
theorem Uuid.isVersion7_of_branchBits {u : Uuid} {millis : Nat} {urandom : List UInt8}
    (hint : u.int = branchBits millis (fromBytes urandom)) :
    u.IsVersion7 millis (keptBits urandom) := by
  rw [branchBits_eq] at hint
  have hlow : fromBytes urandom % 2 ^ 62 < 2 ^ 62 := Nat.mod_lt _ (by omega)
  have hhigh : fromBytes urandom / 2 ^ 64 % 2 ^ 12 < 2 ^ 12 := Nat.mod_lt _ (by omega)
  -- each field is below its width, so dividing by its place leaves the fields above it
  constructor
  · omega
  · omega
  · omega
  · rw [keptBits]
    omega

theorem prefixed_lt_iff (pre : String) (u v : Uuid) :
    pre ++ "-" ++ String.ofList u.str < pre ++ "-" ++ String.ofList v.str ↔ u.int < v.int := by
  rw [String.lt_iff]
  simp only [String.toList_append, String.toList_ofList]
  rw [append_lt_append_iff rfl, u.str_lt_iff v]
  simp

theorem prefixed_inj (pre : String) (u v : Uuid) :
    pre ++ "-" ++ String.ofList u.str = pre ++ "-" ++ String.ofList v.str ↔ u.int = v.int := by
  constructor
  · intro h
    have htext := congrArg String.toList h
    simp only [String.toList_append, String.toList_ofList, List.append_cancel_left_eq] at htext
    rw [← u.read_str, htext, v.read_str]
  · intro h
    rw [Uuid.str, Uuid.str, Uuid.hex, Uuid.hex, h]

/-- Two returned ids of one prefix sort by the millisecond, and within one by
    the bits kept; they are the same only when both are. -/
theorem returned_order {pre : String} {nanos nanos' : Nat} {urandom urandom' : List UInt8}
    {id id' : String} (h : newBranchId pre nanos urandom = .ok id)
    (h' : newBranchId pre nanos' urandom' = .ok id') :
    (id < id' ↔ nanos / 1000000 < nanos' / 1000000 ∨
      nanos / 1000000 = nanos' / 1000000 ∧ keptBits urandom < keptBits urandom') ∧
    (id = id' ↔ nanos / 1000000 = nanos' / 1000000 ∧ keptBits urandom = keptBits urandom') := by
  obtain ⟨u, hint, hid⟩ := of_newBranchId h
  obtain ⟨v, hint', hid'⟩ := of_newBranchId h'
  have hlt := branchBits_lt_iff (nanos / 1000000) (nanos' / 1000000) urandom urandom'
  have hgt := branchBits_lt_iff (nanos' / 1000000) (nanos / 1000000) urandom' urandom
  rw [hid, hid', prefixed_lt_iff, prefixed_inj, hint, hint']
  constructor
  · exact hlt
  · omega

/-- **Branch ids are readable and ordered by time.** Whatever the clock and the
    random bytes say, `new_branch_id` either returns the text of a version-7 UUID
    of that millisecond behind its prefix, 36 characters that read back as the
    UUID, or raises, and it raises exactly when the clock has outgrown 48 bits
    of milliseconds. Of any two ids it returns under one prefix, the one of the
    earlier millisecond comes first as a string, two of one millisecond sort by
    the bits they keep, and two are equal only when both agree. -/
theorem newBranchId_order (pre : String) (nanos nanos' : Nat) (urandom urandom' : List UInt8) :
    ((nanos / 1000000 < 2 ^ 48 ∧ ∃ u : Uuid,
        newBranchId pre nanos urandom = .ok (pre ++ "-" ++ String.ofList u.str) ∧
        u.IsVersion7 (nanos / 1000000) (keptBits urandom) ∧
        u.str.length = 36 ∧ Uuid.read u.str = u.int) ∨
      (2 ^ 48 ≤ nanos / 1000000 ∧ newBranchId pre nanos urandom
        = .error (.valueError "int is out of range (need a 128-bit value)"))) ∧
    ∀ id id', newBranchId pre nanos urandom = .ok id →
      newBranchId pre nanos' urandom' = .ok id' →
      (id < id' ↔ nanos / 1000000 < nanos' / 1000000 ∨
        nanos / 1000000 = nanos' / 1000000 ∧ keptBits urandom < keptBits urandom') ∧
      (id = id' ↔ nanos / 1000000 = nanos' / 1000000 ∧
        keptBits urandom = keptBits urandom') := by
  constructor
  · obtain ⟨hearly, u, hint, hid⟩ | hlate := newBranchId_cases pre nanos urandom
    · apply Or.inl
      exact ⟨hearly, u, hid, Uuid.isVersion7_of_branchBits hint, u.length_str, u.read_str⟩
    · exact Or.inr hlate
  · intro id id' h h'
    exact returned_order h h'

/-- The second id is a millisecond younger, with the least random bits after the greatest. -/
theorem newBranchId_order_younger :
    newBranchId "branch" 1700000000000000000 (List.replicate 10 255) = .ok
        "branch-018bcfe5-6800-7fff-bfff-ffffffffffff" ∧
      newBranchId "branch" 1700000000001000000 (List.replicate 10 0) = .ok
        "branch-018bcfe5-6801-7000-8000-000000000000" ∧
      "branch-018bcfe5-6800-7fff-bfff-ffffffffffff"
        < "branch-018bcfe5-6801-7000-8000-000000000000" := by
  have hfirst : newBranchId "branch" 1700000000000000000 (List.replicate 10 255) = .ok
      "branch-018bcfe5-6800-7fff-bfff-ffffffffffff" := by decide
  have hsecond : newBranchId "branch" 1700000000001000000 (List.replicate 10 0) = .ok
      "branch-018bcfe5-6801-7000-8000-000000000000" := by decide
  refine ⟨hfirst, hsecond, ?_⟩
  have horder := newBranchId_order "branch" 1700000000000000000 1700000000001000000
    (List.replicate 10 255) (List.replicate 10 0)
  apply (horder.2 _ _ hfirst hsecond).1.mpr
  exact Or.inl (by decide)

end Semora
