import Semora.Framework.Dict
import Mathlib.Data.List.Perm.Subperm
import Mathlib.Data.List.Sort
import Mathlib.Data.String.Basic

/-! # JSON Values

    JSON as Python holds it: an object is a dictionary, which lists its
    members in the order of their insertion and knows every key once. What a
    scalar is stays open, and so does what Python's `==` makes of two of them.

    * `get?`: what is found at a path of keys and indices, and `Same`: the
      same is found at every path. It is what values are compared by; the
      other notions are proved to be `Same`.
    * `equal`: Python's `==`.
    * `sortKeys`: every object in the order of its keys.
    * `without`: no members under certain keys, at any depth. -/

/-- A JSON value over scalars of type `S`. -/
inductive JsonTree (S : Type) where
  | scalar (value : S)
  | str (text : String)
  | arr (items : List (JsonTree S))
  | obj (fields : List (String × JsonTree S))

namespace JsonTree

variable {S N : Type}

/-! ## Section 1: Shape -/

/-- What holds of a value if it holds of what is in it. -/
@[elab_as_elim]
theorem induct {P : JsonTree S → Prop} (scalar : ∀ value, P (.scalar value))
    (str : ∀ text, P (.str text)) (arr : ∀ items, (∀ item ∈ items, P item) → P (.arr items))
    (obj : ∀ fields, (∀ field ∈ fields, P field.2) → P (.obj fields)) (j : JsonTree S) : P j := by
  refine @JsonTree.rec S P (fun items => ∀ item ∈ items, P item)
    (fun fields => ∀ field ∈ fields, P field.2) (fun field => P field.2)
    scalar str arr obj ?_ ?_ ?_ ?_ ?_ j
  · exact fun _ h => absurd h List.not_mem_nil
  · intro item items hitem hitems other hmem
    rcases List.mem_cons.mp hmem with rfl | hmem
    · exact hitem
    · exact hitems other hmem
  · exact fun _ h => absurd h List.not_mem_nil
  · intro field fields hfield hfields other hmem
    rcases List.mem_cons.mp hmem with rfl | hmem
    · exact hfield
    · exact hfields other hmem
  · exact fun _ _ hvalue => hvalue

/-- No object lists a key twice. -/
inductive Wf : JsonTree S → Prop
  | scalar (value : S) : Wf (.scalar value)
  | str (text : String) : Wf (.str text)
  | arr {items : List (JsonTree S)} (hitems : ∀ item ∈ items, Wf item) : Wf (.arr items)
  | obj {fields : List (String × JsonTree S)} (hnodup : (fields.map Prod.fst).Nodup)
      (hfields : ∀ field ∈ fields, Wf field.2) : Wf (.obj fields)

theorem Wf.items {items : List (JsonTree S)} (h : Wf (.arr items)) : ∀ item ∈ items, Wf item := by
  cases h with
  | arr hitems => exact hitems

theorem Wf.nodup {fields : List (String × JsonTree S)} (h : Wf (.obj fields)) :
    (fields.map Prod.fst).Nodup := by
  cases h with
  | obj hnodup _ => exact hnodup

theorem Wf.fields {fields : List (String × JsonTree S)} (h : Wf (.obj fields)) :
    ∀ field ∈ fields, Wf field.2 := by
  cases h with
  | obj _ hfields => exact hfields

theorem Wf.found {fields : List (String × JsonTree S)} (h : Wf (.obj fields)) {k : String}
    {v : JsonTree S} (hv : Dict.find k fields = some v) : Wf v :=
  h.fields (k, v) (Dict.mem_of_find hv)

/-! ## Section 2: Paths -/

/-- A step into a value. -/
inductive Step where
  | key (name : String)
  | index (i : Nat)
  deriving DecidableEq, Repr

/-- What a step leads to. -/
def child : JsonTree S → Step → Option (JsonTree S)
  | .arr items, .index i => items[i]?
  | .obj fields, .key k => Dict.find k fields
  | _, _ => none

/-- What a path leads to. -/
def get? (j : JsonTree S) : List Step → Option (JsonTree S)
  | [] => some j
  | step :: path => (j.child step).bind fun found => found.get? path

/-- A value, less what is in it. -/
inductive Root (N : Type) where
  | scalar (value : N)
  | str (text : String)
  | arr (length : Nat)
  | obj
  deriving DecidableEq

/-- The outermost part of a value. -/
def root (value : S → N) : JsonTree S → Root N
  | .scalar v => .scalar (value v)
  | .str text => .str text
  | .arr items => .arr items.length
  | .obj _ => .obj

/-- The same is found at every path, going by the scalars' values. -/
def Same (value : S → N) (a b : JsonTree S) : Prop :=
  ∀ path, (a.get? path).map (root value) = (b.get? path).map (root value)

variable {value : S → N} {a b c : JsonTree S}

theorem Same.refl (a : JsonTree S) : Same value a a := fun _ => rfl

theorem Same.symm (h : Same value a b) : Same value b a := fun path => (h path).symm

theorem Same.trans (h : Same value a b) (h' : Same value b c) : Same value a c :=
  fun path => (h path).trans (h' path)

theorem Same.root (h : Same value a b) : a.root value = b.root value := Option.some.inj (h [])

/-- Going by less of the scalars, less differs. -/
theorem Same.coarser {N' : Type} (f : N → N') (h : Same value a b) :
    Same (fun s => f (value s)) a b := by
  have hroot : ∀ j : JsonTree S, j.root (fun s => f (value s)) = match j.root value with
      | .scalar v => .scalar (f v)
      | .str text => .str text
      | .arr length => .arr length
      | .obj => .obj := by
    intro j
    cases j <;> rfl
  intro path
  have hpath := h path
  cases ha : a.get? path with
  | none =>
    rw [ha] at hpath
    rw [Option.map_eq_none_iff.mp hpath.symm]
  | some x =>
    rw [ha] at hpath
    obtain ⟨y, hy, hxy⟩ := Option.map_eq_some_iff.mp hpath.symm
    rw [hy, Option.map_some, Option.map_some, hroot, hroot, hxy]

/-- Two values are the same if they are so on the outside and step by step. -/
theorem same_iff_children : Same value a b ↔ a.root value = b.root value ∧
    ∀ step, Option.Rel (Same value) (a.child step) (b.child step) := by
  constructor
  · refine fun h => ⟨h.root, fun step => ?_⟩
    -- A path is empty, or a step into a child followed by a path.
    have hstep : ∀ path, ((a.child step).bind fun found => found.get? path).map (root value)
        = ((b.child step).bind fun found => found.get? path).map (root value) :=
      fun path => h (step :: path)
    cases ha : a.child step with
    | none =>
      cases hb : b.child step with
      | none => exact .none
      | some y =>
        have hnil := hstep []
        rw [ha, hb] at hnil
        cases hnil
    | some x =>
      cases hb : b.child step with
      | none =>
        have hnil := hstep []
        rw [ha, hb] at hnil
        cases hnil
      | some y =>
        rw [ha, hb] at hstep
        exact .some hstep
  · rintro ⟨hroot, hsteps⟩ path
    cases path with
    | nil => exact congrArg some hroot
    | cons step path =>
      have hstep := hsteps step
      show ((a.child step).bind fun found => found.get? path).map (root value)
        = ((b.child step).bind fun found => found.get? path).map (root value)
      cases ha : a.child step with
      | none =>
        rw [ha] at hstep
        cases hb : b.child step with
        | none => rfl
        | some y =>
          rw [hb] at hstep
          cases hstep
      | some x =>
        rw [ha] at hstep
        cases hb : b.child step with
        | none =>
          rw [hb] at hstep
          cases hstep
        | some y =>
          rw [hb] at hstep
          cases hstep with
          | some hsame => exact hsame path

/-- Two objects are the same if they are so key by key. -/
theorem same_obj_iff {fields fields' : List (String × JsonTree S)} :
    Same value (.obj fields) (.obj fields') ↔
      ∀ k, Option.Rel (Same value) (Dict.find k fields) (Dict.find k fields') := by
  rw [same_iff_children]
  constructor
  · exact fun h k => h.2 (.key k)
  · refine fun h => ⟨rfl, fun step => ?_⟩
    cases step with
    | key k => exact h k
    | index i => exact .none

/-- Two objects that begin with the same key are the same if there and in the rest they are. -/
theorem same_obj_cons_iff {k : String} {v v' : JsonTree S}
    {fields fields' : List (String × JsonTree S)} (hk : k ∉ fields.map Prod.fst)
    (hk' : k ∉ fields'.map Prod.fst) :
    Same value (.obj ((k, v) :: fields)) (.obj ((k, v') :: fields')) ↔
      Same value v v' ∧ Same value (.obj fields) (.obj fields') := by
  rw [same_obj_iff, same_obj_iff]
  have hhere : ∀ (w : JsonTree S) rest, Dict.find k ((k, w) :: rest) = some w :=
    fun w rest => if_pos rfl
  have hother : ∀ (w : JsonTree S) rest {k₀ : String}, k ≠ k₀ →
      Dict.find k₀ ((k, w) :: rest) = Dict.find k₀ rest := fun w rest k₀ hne => if_neg hne
  constructor
  · intro h
    refine ⟨?_, fun k₀ => ?_⟩
    · have hfirst := h k
      rw [hhere, hhere] at hfirst
      cases hfirst with
      | some hsame => exact hsame
    · -- The field's own key finds it; any other key looks past it.
      by_cases hne : k = k₀
      · rw [← hne, Dict.find_eq_none_iff.mpr hk, Dict.find_eq_none_iff.mpr hk']
        exact .none
      · have hrest := h k₀
        rwa [hother _ _ hne, hother _ _ hne] at hrest
  · rintro ⟨hsame, hrest⟩ k₀
    by_cases hne : k = k₀
    · rw [← hne, hhere, hhere]
      exact .some hsame
    · rw [hother _ _ hne, hother _ _ hne]
      exact hrest k₀

/-- Two arrays are the same if they are so item by item. -/
theorem same_arr_iff {items items' : List (JsonTree S)} :
    Same value (.arr items) (.arr items') ↔ List.Forall₂ (Same value) items items' := by
  rw [same_iff_children, List.forall₂_iff_get]
  simp only [root, Root.arr.injEq]
  refine and_congr_right fun hlength => ⟨fun hsteps i hi hi' => ?_, fun hall step => ?_⟩
  · have hstep : Option.Rel (Same value) items[i]? items'[i]? := hsteps (.index i)
    rw [List.getElem?_eq_getElem hi, List.getElem?_eq_getElem hi'] at hstep
    cases hstep with
    | some hsame => exact hsame
  · cases step with
    | key k => exact .none
    | index i =>
      show Option.Rel _ items[i]? items'[i]?
      by_cases hi : i < items.length
      · rw [List.getElem?_eq_getElem hi, List.getElem?_eq_getElem (hlength ▸ hi)]
        exact .some (hall i hi (hlength ▸ hi))
      · rw [List.getElem?_eq_none (Nat.le_of_not_lt hi),
          List.getElem?_eq_none (hlength ▸ Nat.le_of_not_lt hi)]
        exact .none

theorem same_str_iff {text text' : String} :
    Same value (.str text) (.str text') ↔ text = text' := by
  rw [same_iff_children]
  simp [root, child]

/-! ## Section 3: Equality -/

section equality

variable [DecidableEq N] (value : S → N)

mutual

/-- Python's `==`: lists item by item, dictionaries member by member in any order. -/
def equal : JsonTree S → JsonTree S → Bool
  | .scalar a, .scalar b => value a = value b
  | .str a, .str b => a = b
  | .arr items, .arr items' => equalItems items items'
  | .obj fields, .obj fields' => fields.length = fields'.length && containedIn fields fields'
  | _, _ => false

/-- The items of two lists are equal. -/
def equalItems : List (JsonTree S) → List (JsonTree S) → Bool
  | [], [] => true
  | item :: items, item' :: items' => equal item item' && equalItems items items'
  | _, _ => false

/-- The members of a dictionary are found in another, with equal values. -/
def containedIn : List (String × JsonTree S) → List (String × JsonTree S) → Bool
  | [], _ => true
  | (k, v) :: fields, fields' =>
    (match Dict.find k fields' with
      | some w => equal v w
      | none => false) && containedIn fields fields'

end

variable {value}

theorem equalItems_iff {items items' : List (JsonTree S)} :
    equalItems value items items' = true ↔
      List.Forall₂ (fun item item' => equal value item item' = true) items items' := by
  induction items generalizing items' with
  | nil => cases items' <;> simp [equalItems]
  | cons item items ih => cases items' <;> simp [equalItems, ih]

theorem containedIn_iff {fields fields' : List (String × JsonTree S)} :
    containedIn value fields fields' = true ↔ ∀ field ∈ fields, ∃ w,
      Dict.find field.1 fields' = some w ∧ equal value field.2 w = true := by
  induction fields with
  | nil => simp [containedIn]
  | cons field fields ih =>
    obtain ⟨k, v⟩ := field
    unfold containedIn
    rw [Bool.and_eq_true, ih, List.forall_mem_cons]
    refine and_congr_left fun _ => ?_
    cases Dict.find k fields' <;> simp

/-- The same keys, when as many are among the others. -/
theorem keys_of_subset {fields fields' : List (String × JsonTree S)}
    (hnodup : (fields.map Prod.fst).Nodup) (hlength : fields.length = fields'.length)
    (hsub : ∀ k ∈ fields.map Prod.fst, k ∈ fields'.map Prod.fst) {k : String}
    (hk : k ∈ fields'.map Prod.fst) : k ∈ fields.map Prod.fst := by
  have hperm : (fields.map Prod.fst).Perm (fields'.map Prod.fst) :=
    (List.Nodup.subperm hnodup hsub).perm_of_length_le (by simp [hlength])
  exact hperm.mem_iff.mpr hk

/-- Python's `==` asks whether two values are the same. -/
theorem equal_iff_same (ha : Wf a) (hb : Wf b) : equal value a b = true ↔ Same value a b := by
  -- Induction on the first tree. Objects are the case: equal lengths and distinct keys make one
  -- side's fields the other's.
  induction a using induct generalizing b with
  | scalar v =>
    rw [same_iff_children]
    cases b with
    | scalar w => simp [equal, root, child]
    | _ => simp [equal, root]
  | str text =>
    rw [same_iff_children]
    cases b with
    | str other => simp [equal, root, child]
    | _ => simp [equal, root]
  | arr items ih =>
    cases b with
    | arr items' =>
      rw [equal, equalItems_iff, same_arr_iff, List.forall₂_iff_get, List.forall₂_iff_get]
      refine and_congr_right fun _ => forall₃_congr fun i hi hi' => ?_
      have hitem := List.getElem_mem hi
      exact ih _ hitem (ha.items _ hitem) (hb.items _ (List.getElem_mem hi'))
    | _ => simp [equal, root, same_iff_children]
  | obj fields ih =>
    rw [same_iff_children]
    cases b with
    | obj fields' =>
      have hfields : ∀ k v w, Dict.find k fields = some v → Dict.find k fields' = some w →
          (equal value v w = true ↔ Same value v w) := fun k v w hv hw =>
        ih (k, v) (Dict.mem_of_find hv) (ha.found hv) (hb.found hw)
      simp only [equal, root, Bool.and_eq_true, decide_eq_true_eq, containedIn_iff, true_and]
      constructor
      · -- As many distinct keys, each of them the other's too, leave no key over.
        rintro ⟨hlength, hall⟩ step
        have hsub : ∀ k ∈ fields.map Prod.fst, k ∈ fields'.map Prod.fst := by
          intro k hk
          obtain ⟨field, hmem, rfl⟩ := List.mem_map.mp hk
          obtain ⟨w, hw, _⟩ := hall field hmem
          exact List.mem_map.mpr ⟨(field.1, w), Dict.mem_of_find hw, rfl⟩
        cases step with
        | index i => exact .none
        | key k =>
          show Option.Rel _ (Dict.find k fields) (Dict.find k fields')
          cases hv : Dict.find k fields with
          | some v =>
            obtain ⟨w, hw, hequal⟩ := hall (k, v) (Dict.mem_of_find hv)
            rw [hw]
            exact .some ((hfields k v w hv hw).mp hequal)
          | none =>
            have hnone : Dict.find k fields' = none := Dict.find_eq_none_iff.mpr fun hk =>
              Dict.find_eq_none_iff.mp hv (keys_of_subset ha.nodup hlength hsub hk)
            rw [hnone]
            exact .none
      · -- Found alike under every key, the fields are a permutation of each other's keys.
        intro hall
        have hstep : ∀ k, Option.Rel (Same value) (Dict.find k fields) (Dict.find k fields') :=
          fun k => hall (.key k)
        have hkeys : ∀ k, k ∈ fields.map Prod.fst ↔ k ∈ fields'.map Prod.fst := by
          intro k
          have hk := hstep k
          rw [← not_iff_not, ← Dict.find_eq_none_iff, ← Dict.find_eq_none_iff]
          generalize Dict.find k fields = v, Dict.find k fields' = w at hk
          cases hk <;> simp
        have hperm : (fields.map Prod.fst).Perm (fields'.map Prod.fst) :=
          (List.perm_ext_iff_of_nodup ha.nodup hb.nodup).mpr hkeys
        refine ⟨by simpa using hperm.length_eq, fun field hmem => ?_⟩
        have hv := Dict.find_of_mem ha.nodup (show (field.1, field.2) ∈ fields from hmem)
        have hk := hstep field.1
        rw [hv] at hk
        cases hw : Dict.find field.1 fields' with
        | none =>
          rw [hw] at hk
          cases hk
        | some w =>
          rw [hw] at hk
          cases hk with
          | some hsame => exact ⟨w, rfl, (hfields field.1 _ w hv hw).mpr hsame⟩
    | _ => simp [equal, root]

end equality

/-! ## Section 4: Sorted keys -/

mutual

/-- Every object in the order of its keys. -/
def sortKeys : JsonTree S → JsonTree S
  | .obj fields => .obj ((sortFields fields).insertionSort fun a b => a.1 ≤ b.1)
  | .arr items => .arr (sortItems items)
  | j => j

def sortItems : List (JsonTree S) → List (JsonTree S)
  | [] => []
  | item :: items => sortKeys item :: sortItems items

def sortFields : List (String × JsonTree S) → List (String × JsonTree S)
  | [] => []
  | (k, v) :: fields => (k, sortKeys v) :: sortFields fields

end

theorem sortItems_eq_map (items : List (JsonTree S)) : sortItems items = items.map sortKeys := by
  induction items with
  | nil => rfl
  | cons item items ih =>
    rw [sortItems, ih]
    rfl

theorem sortFields_eq_map (fields : List (String × JsonTree S)) :
    sortFields fields = fields.map fun field => (field.1, sortKeys field.2) := by
  induction fields with
  | nil => rfl
  | cons field fields ih =>
    rw [sortFields, ih]
    rfl

theorem keys_sortFields (fields : List (String × JsonTree S)) :
    (sortFields fields).map Prod.fst = fields.map Prod.fst := by
  rw [sortFields_eq_map, List.map_map]
  rfl

theorem root_sortKeys (a : JsonTree S) : (sortKeys a).root value = a.root value := by
  cases a with
  | arr items => simp [sortKeys, root, sortItems_eq_map]
  | _ => simp [sortKeys, root]

theorem child_sortKeys (ha : Wf a) (step : Step) :
    (sortKeys a).child step = (a.child step).map sortKeys := by
  cases a with
  | scalar v => rfl
  | str text => rfl
  | arr items =>
    cases step with
    | key k => rfl
    | index i => simp [sortKeys, child, sortItems_eq_map]
  | obj fields =>
    cases step with
    | index i => rfl
    | key k =>
      have hperm := List.perm_insertionSort (fun a b : String × JsonTree S => a.1 ≤ b.1)
        (sortFields fields)
      have hnodup : ((sortFields fields).map Prod.fst).Nodup := by
        rw [keys_sortFields]
        exact ha.nodup
      show Dict.find k _ = (Dict.find k fields).map sortKeys
      rw [← Dict.find_perm hperm.symm hnodup, sortFields_eq_map]
      exact Dict.find_map sortKeys fields k

theorem Wf.child {step : Step} {x : JsonTree S} (ha : Wf a) (hx : a.child step = some x) :
    Wf x := by
  cases a with
  | scalar v => cases hx
  | str text => cases hx
  | arr items =>
    cases step with
    | key k => cases hx
    | index i => exact ha.items x (List.mem_of_getElem? hx)
  | obj fields =>
    cases step with
    | index i => cases hx
    | key k => exact ha.found hx

/-- Sorting changes the order of the members only. -/
theorem sortKeys_same (ha : Wf a) : Same value (sortKeys a) a := by
  intro path
  induction path generalizing a with
  | nil => exact congrArg some (root_sortKeys a)
  | cons step path ih =>
    show (((sortKeys a).child step).bind fun found => found.get? path).map (root value)
      = ((a.child step).bind fun found => found.get? path).map (root value)
    rw [child_sortKeys ha]
    cases hx : a.child step with
    | none => rfl
    | some x => exact ih (ha.child hx)

/-- Sorted, two values that are the same are one. -/
theorem sortKeys_eq_iff (ha : Wf a) (hb : Wf b) : sortKeys a = sortKeys b ↔ Same id a b := by
  constructor
  · intro heq
    have hsorted : Same id (sortKeys a) b := by
      rw [heq]
      exact sortKeys_same hb
    exact (sortKeys_same ha).symm.trans hsorted
  · intro hsame
    -- Induction on the first tree; sorted objects are equal lists because a sorted list without
    -- repeated keys is settled by what it finds.
    induction a using induct generalizing b with
    | scalar v =>
      have hroot := hsame.root
      cases b <;> cases hroot
      rfl
    | str text =>
      have hroot := hsame.root
      cases b <;> cases hroot
      rfl
    | arr items ih =>
      obtain ⟨hroot, hsteps⟩ := same_iff_children.mp hsame
      cases b with
      | arr items' =>
        have hlength : items.length = items'.length := Root.arr.inj hroot
        rw [sortKeys, sortKeys, sortItems_eq_map, sortItems_eq_map]
        refine congrArg JsonTree.arr (List.ext_getElem (by simpa using hlength) fun i hi hi' => ?_)
        rw [List.length_map] at hi hi'
        have hstep : Option.Rel (Same id) items[i]? items'[i]? := hsteps (.index i)
        rw [List.getElem?_eq_getElem hi, List.getElem?_eq_getElem hi'] at hstep
        cases hstep with
        | some hitem =>
          rw [List.getElem_map, List.getElem_map]
          exact ih _ (List.getElem_mem hi) (ha.items _ (List.getElem_mem hi))
            (hb.items _ (List.getElem_mem hi')) hitem
      | _ => cases hroot
    | obj fields ih =>
      obtain ⟨hroot, hsteps⟩ := same_iff_children.mp hsame
      cases b with
      | obj fields' =>
        have hstep : ∀ k, Option.Rel (Same id) (Dict.find k fields) (Dict.find k fields') :=
          fun k => hsteps (.key k)
        have hfind : ∀ k, Dict.find k (sortFields fields) = Dict.find k (sortFields fields') := by
          intro k
          have hk := hstep k
          rw [sortFields_eq_map, sortFields_eq_map]
          refine (Dict.find_map sortKeys fields k).trans
            (Eq.trans ?_ (Dict.find_map sortKeys fields' k).symm)
          cases hv : Dict.find k fields with
          | none =>
            rw [hv] at hk
            cases hw : Dict.find k fields' with
            | none => rfl
            | some w =>
              rw [hw] at hk
              cases hk
          | some v =>
            rw [hv] at hk
            cases hw : Dict.find k fields' with
            | none =>
              rw [hw] at hk
              cases hk
            | some w =>
              rw [hw] at hk
              cases hk with
              | some hvw =>
                exact congrArg some
                  (ih (k, v) (Dict.mem_of_find hv) (ha.found hv) (hb.found hw) hvw)
        have hnodup : ((sortFields fields).map Prod.fst).Nodup := by
          rw [keys_sortFields]
          exact ha.nodup
        have hnodup' : ((sortFields fields').map Prod.fst).Nodup := by
          rw [keys_sortFields]
          exact hb.nodup
        have hperm : (sortFields fields).Perm (sortFields fields') := by
          refine (List.perm_ext_iff_of_nodup (List.Nodup.of_map _ hnodup)
            (List.Nodup.of_map _ hnodup')).mpr fun ⟨k, v⟩ => ?_
          rw [← Dict.find_eq_some_iff hnodup, ← Dict.find_eq_some_iff hnodup', hfind]
        rw [sortKeys, sortKeys]
        refine congrArg JsonTree.obj (List.Perm.eq_of_pairwise ?_ (List.pairwise_insertionSort _ _)
          (List.pairwise_insertionSort _ _)
          ((List.perm_insertionSort _ _).trans (hperm.trans (List.perm_insertionSort _ _).symm)))
        rintro ⟨k, v⟩ ⟨k', v'⟩ hmem hmem' hle hle'
        obtain rfl : k = k' := le_antisymm hle hle'
        have hv := Dict.find_of_mem hnodup ((List.perm_insertionSort _ _).mem_iff.mp hmem)
        have hv' := Dict.find_of_mem hnodup' ((List.perm_insertionSort _ _).mem_iff.mp hmem')
        rw [hfind, hv'] at hv
        rw [Option.some.inj hv]
      | _ => cases hroot

/-! ## Section 5: Left-out keys -/

section without

variable (drop : String → Bool)

mutual

/-- The members under some keys are left out, in every object. -/
def without : JsonTree S → JsonTree S
  | .obj fields => .obj (withoutFields fields)
  | .arr items => .arr (withoutItems items)
  | j => j

def withoutItems : List (JsonTree S) → List (JsonTree S)
  | [] => []
  | item :: items => without item :: withoutItems items

def withoutFields : List (String × JsonTree S) → List (String × JsonTree S)
  | [] => []
  | (k, v) :: fields =>
    if drop k then withoutFields fields else (k, without v) :: withoutFields fields

end

/-- A step that a left-out key is not in the way of. -/
def Step.Kept : Step → Prop
  | .key k => drop k = false
  | .index _ => True

variable {drop}

theorem withoutItems_eq_map (items : List (JsonTree S)) :
    withoutItems drop items = items.map (without drop) := by
  induction items with
  | nil => rfl
  | cons item items ih =>
    rw [withoutItems, ih]
    rfl

theorem withoutFields_eq_map (fields : List (String × JsonTree S)) :
    withoutFields drop fields = (fields.filter fun field => !drop field.1).map
      fun field => (field.1, without drop field.2) := by
  induction fields with
  | nil => rfl
  | cons field fields ih =>
    obtain ⟨k, v⟩ := field
    rw [withoutFields, ih]
    cases hk : drop k <;> simp [hk]

theorem root_without (a : JsonTree S) : (without drop a).root value = a.root value := by
  cases a with
  | arr items => simp [without, root, withoutItems_eq_map]
  | _ => simp [without, root]

theorem find_withoutFields {k : String} (hk : drop k = false)
    (fields : List (String × JsonTree S)) :
    Dict.find k (withoutFields drop fields) = (Dict.find k fields).map (without drop) := by
  rw [withoutFields_eq_map]
  refine (Dict.find_map (without drop) _ k).trans ?_
  rw [Dict.find_filter (fun k => !drop k) (by simp [hk])]

theorem find_withoutFields_of_drop {k : String} (hk : drop k = true)
    (fields : List (String × JsonTree S)) : Dict.find k (withoutFields drop fields) = none := by
  rw [Dict.find_eq_none_iff, withoutFields_eq_map, List.map_map]
  intro hmem
  obtain ⟨field, hfield, rfl⟩ := List.mem_map.mp hmem
  have hkept := (List.mem_filter.mp hfield).2
  simp only [Function.comp] at hk
  rw [hk] at hkept
  cases hkept

theorem child_without (a : JsonTree S) {step : Step} (hstep : step.Kept drop) :
    (without drop a).child step = (a.child step).map (without drop) := by
  cases a with
  | scalar v => rfl
  | str text => rfl
  | arr items =>
    cases step with
    | key k => rfl
    | index i => simp [without, child, withoutItems_eq_map]
  | obj fields =>
    cases step with
    | index i => rfl
    | key k => exact find_withoutFields hstep fields

theorem child_without_of_drop (a : JsonTree S) {k : String} (hk : drop k = true) :
    (without drop a).child (.key k) = none := by
  cases a with
  | obj fields => exact find_withoutFields_of_drop hk fields
  | _ => rfl

theorem Wf.without (ha : Wf a) : Wf (without drop a) := by
  induction a using induct with
  | scalar v => exact ha
  | str text => exact ha
  | arr items ih =>
    refine .arr fun item hmem => ?_
    rw [withoutItems_eq_map] at hmem
    obtain ⟨before, hbefore, rfl⟩ := List.mem_map.mp hmem
    exact ih before hbefore (ha.items before hbefore)
  | obj fields ih =>
    refine .obj ?_ fun field hmem => ?_
    · rw [withoutFields_eq_map, List.map_map]
      exact ha.nodup.sublist (List.filter_sublist.map Prod.fst)
    · rw [withoutFields_eq_map] at hmem
      obtain ⟨before, hbefore, rfl⟩ := List.mem_map.mp hmem
      have hfield := (List.mem_filter.mp hbefore).1
      exact ih before hfield (ha.fields before hfield)

/-- The same is found at every path that no left-out key is in the way of. -/
def SameOff (drop : String → Bool) (value : S → N) (a b : JsonTree S) : Prop :=
  ∀ path, (∀ step ∈ path, Step.Kept drop step) →
    (a.get? path).map (root value) = (b.get? path).map (root value)

theorem get?_without (a : JsonTree S) {path : List Step}
    (hpath : ∀ step ∈ path, Step.Kept drop step) :
    (JsonTree.without drop a).get? path = (a.get? path).map (JsonTree.without drop) := by
  induction path generalizing a with
  | nil => rfl
  | cons step path ih =>
    show ((JsonTree.without drop a).child step).bind (fun found => found.get? path)
      = ((a.child step).bind fun found => found.get? path).map (JsonTree.without drop)
    rw [child_without a (hpath step List.mem_cons_self)]
    cases a.child step with
    | none => rfl
    | some x => exact ih x fun other hmem => hpath other (List.mem_cons_of_mem _ hmem)

theorem get?_without_of_drop (a : JsonTree S) {path : List Step} {step : Step} (hmem : step ∈ path)
    (hstep : ¬ Step.Kept drop step) : (JsonTree.without drop a).get? path = none := by
  induction path generalizing a with
  | nil => cases hmem
  | cons first path ih =>
    show ((JsonTree.without drop a).child first).bind (fun found => found.get? path) = none
    by_cases hfirst : Step.Kept drop first
    · rw [child_without a hfirst]
      have hlater : step ∈ path := by
        rcases List.mem_cons.mp hmem with rfl | hmem
        · exact absurd hfirst hstep
        · exact hmem
      cases a.child first with
      | none => rfl
      | some x => exact ih x hlater
    · cases first with
      | index i => exact absurd trivial hfirst
      | key k =>
        rw [child_without_of_drop a (Bool.eq_true_of_not_eq_false hfirst)]
        rfl

/-- What is left of two values is the same if they are the same off the keys left out. -/
theorem without_same_iff :
    Same value (JsonTree.without drop a) (JsonTree.without drop b) ↔ SameOff drop value a b := by
  have hroot : ∀ x : Option (JsonTree S),
      (x.map (JsonTree.without drop)).map (root value) = x.map (root value) := by
    intro x
    cases x with
    | none => rfl
    | some x => exact congrArg some (root_without x)
  constructor
  · intro hsame path hpath
    have hthere := hsame path
    rwa [get?_without a hpath, get?_without b hpath, hroot, hroot] at hthere
  · intro hsame path
    by_cases hpath : ∀ step ∈ path, Step.Kept drop step
    · rw [get?_without a hpath, get?_without b hpath, hroot, hroot]
      exact hsame path hpath
    · obtain ⟨step, hstep⟩ := not_forall.mp hpath
      obtain ⟨hmem, hdropped⟩ := Classical.not_imp.mp hstep
      rw [get?_without_of_drop a hmem hdropped, get?_without_of_drop b hmem hdropped]

end without

end JsonTree
