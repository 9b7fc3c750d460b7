import Semora.Transcript.Entries

/-! # Logs That Writers Write

    What writers append to an empty conversation: chained entries whose
    parents came before them, and markers. Identities are content-addressed;
    assuming that they do not collide, an entry that is there already is the
    entry that was to be appended, and a leaf marker is always new.

    So the tip that is inferred from the order of the entries is the position
    of the last write (`activeTip_concat`), and the walk from it along the
    parent links is the chain of that position (`activeBranch_eq`). -/

namespace Semora

open TranscriptEntry

variable {S M : Type} [PythonScalar S]

/-! ## Section 1: Identities -/

/-- SHA-256 does not collide, and its digests are not empty. -/
structure CollisionFree (outside : Outside S M) : Prop where
  injective : Function.Injective outside.sha256
  nonempty : ∀ text, outside.sha256 text ≠ ""

/-- What stands behind the last of a mark is told apart from what stands before it. -/
theorem split_last {α : Type} {x : α} {front front' back back' : List α}
    (h : front ++ x :: back = front' ++ x :: back') (hback : x ∉ back) (hback' : x ∉ back') :
    front = front' ∧ back = back' := by
  rcases List.append_eq_append_iff.mp h with ⟨more, hfront, hrest⟩ | ⟨more, hfront, hrest⟩
  · cases more with
    | nil =>
      rw [List.append_nil] at hfront
      exact ⟨hfront.symm, (List.cons.inj hrest).2⟩
    | cons y more =>
      obtain ⟨_, hmore⟩ := List.cons.inj hrest
      rw [hmore] at hback
      exact absurd (List.mem_append_right more List.mem_cons_self) hback
  · cases more with
    | nil =>
      rw [List.append_nil] at hfront
      exact ⟨hfront, (List.cons.inj hrest).2.symm⟩
    | cons y more =>
      obtain ⟨_, hmore⟩ := List.cons.inj hrest
      rw [hmore] at hback'
      exact absurd (List.mem_append_right more List.mem_cons_self) hback'

section ids

variable {outside : Outside S M} {parent parent' : Option String} {body body' : JsonTree S}

/-- Identities tell parents and stable bodies apart. -/
theorem CollisionFree.entryId_inj (h : CollisionFree outside)
    (heq : entryId outside.sha256 parent body = entryId outside.sha256 parent' body') :
    parent.getD "" = parent'.getD "" ∧
      JsonTree.dumps true (stripped body) = JsonTree.dumps true (stripped body') := by
  have htext := congrArg String.toList (h.injective heq)
  simp only [String.toList_append, JsonTree.dumps, String.toList_ofList, List.append_assoc] at htext
  obtain ⟨hparent, hbody⟩ := split_last htext (JsonTree.control_not_mem_write _)
    (JsonTree.control_not_mem_write _)
  exact ⟨String.toList_injective hparent, congrArg String.ofList hbody⟩

omit [PythonScalar S] in
theorem stripped_wf (hbody : body.Wf) : (stripped body).Wf := hbody.without

/-- The same stable content, the same text. -/
theorem dumps_stripped_iff (hbody : body.Wf) (hbody' : body'.Wf) :
    JsonTree.dumps true (stripped body) = JsonTree.dumps true (stripped body') ↔
      JsonTree.Same id (stripped body) (stripped body') :=
  JsonTree.dumps_eq_iff (stripped_wf hbody) (stripped_wf hbody')

theorem Marker.wf (marker : Marker) : (marker.body : JsonTree S).Wf := by
  cases marker with
  | leaf leafUuid =>
    refine .obj (by simp) fun field hmem => ?_
    simp only [List.mem_cons, List.not_mem_nil, or_false] at hmem
    rcases hmem with rfl | rfl
    · exact .str _
    · cases leafUuid with
      | none => exact .scalar _
      | some u => exact .str _
  | tombstone deletedUuid =>
    refine .obj (by simp) fun field hmem => ?_
    simp only [List.mem_cons, List.not_mem_nil, or_false] at hmem
    rcases hmem with rfl | rfl <;> exact .str _

/-- Bodies that differ at a key that is not volatile have different texts. -/
theorem dumps_stripped_ne {k : String} (hk : k ∉ volatile) (hbody : body.Wf) (hbody' : body'.Wf)
    (hroot : (body.child (.key k)).map (JsonTree.root id)
      ≠ (body'.child (.key k)).map (JsonTree.root id)) :
    JsonTree.dumps true (stripped body) ≠ JsonTree.dumps true (stripped body') := by
  intro heq
  have hsame := JsonTree.without_same_iff.mp ((dumps_stripped_iff hbody hbody').mp heq)
  have hpath := hsame [.key k] fun step hmem => by
    rw [List.mem_singleton.mp hmem]
    exact decide_eq_false hk
  refine hroot ?_
  have hget : ∀ j : JsonTree S, j.get? [.key k] = j.child (.key k) := by
    intro j
    show (j.child (.key k)).bind (fun found => some found) = _
    cases j.child (.key k) <;> rfl
  rwa [hget, hget] at hpath

theorem message_ne_marker (m : M) (marker : Marker) :
    JsonTree.dumps true (stripped (outside.encode m))
      ≠ JsonTree.dumps true (stripped (marker.body : JsonTree S)) := by
  have hkind : (marker.body : JsonTree S).child (.key "kind") = none := by
    cases marker <;> rfl
  refine dumps_stripped_ne (k := "kind") (by decide) (outside.wf m) marker.wf ?_
  rw [hkind]
  rcases outside.kind m with h | h <;> rw [h] <;> exact Option.some_ne_none _

theorem leaf_ne_tombstone (leafUuid : Option String) (deletedUuid : String) :
    JsonTree.dumps true (stripped ((Marker.leaf leafUuid).body : JsonTree S))
      ≠ JsonTree.dumps true (stripped ((Marker.tombstone deletedUuid).body : JsonTree S)) := by
  refine dumps_stripped_ne (k := "type") (by decide) (Marker.wf _) (Marker.wf _) ?_
  show some (JsonTree.Root.str "leaf") ≠ some (JsonTree.Root.str "tombstone")
  simp

end ids

/-! ## Section 2: What writers write -/

/-- A place to write at: the root, or an entry of the chain. -/
def Position (entries : List (Entry S)) (parent : Option String) : Prop :=
  ∀ u, parent = some u → ∃ e ∈ entries, e.chained = true ∧ e.uuid = u

omit [PythonScalar S] in
theorem Position.append {entries more : List (Entry S)} {parent : Option String}
    (h : Position entries parent) : Position (entries ++ more) parent := by
  intro u hu
  obtain ⟨e, he, hchained, huuid⟩ := h u hu
  exact ⟨e, List.mem_append_left _ he, hchained, huuid⟩

omit [PythonScalar S] in
/-- A marker adds no position. -/
theorem Position.of_concat {entries : List (Entry S)} {entry : Entry S} {parent : Option String}
    (hunchained : entry.chained = false) (h : Position (entries ++ [entry]) parent) :
    Position entries parent := by
  intro u hu
  obtain ⟨e, he, hchained, huuid⟩ := h u hu
  rcases List.mem_append.mp he with he | he
  · exact ⟨e, he, hchained, huuid⟩
  · rw [List.mem_singleton.mp he, hunchained] at hchained
    cases hchained

omit [PythonScalar S] in
theorem position_none (entries : List (Entry S)) : Position entries none :=
  fun _ hu => by cases hu

/-- The entries of a conversation that writers wrote, with `n` markers made so far. -/
inductive Written (outside : Outside S M) (conversation : String) :
    Nat → List (Entry S) → Prop
  | nil (n : Nat) : Written outside conversation n []
  | message {n : Nat} {entries : List (Entry S)} (h : Written outside conversation n entries)
      {parent : Option String} (hparent : Position entries parent) (m : M)
      (metadata : List (String × String)) (time : String)
      (hnew : entryId outside.sha256 parent (outside.encode m) ∉ entries.map Entry.uuid) :
      Written outside conversation n
        (entries ++ [messageEntry outside m conversation parent metadata time])
  | marker {n : Nat} {entries : List (Entry S)} (h : Written outside conversation n entries)
      (marker : Marker) (hleaf : ∀ leafUuid, marker = .leaf leafUuid → Position entries leafUuid)
      (hnew : (markerEntry outside.sha256 marker conversation (outside.markerTime n) :
        Entry S).uuid ∉ entries.map Entry.uuid) :
      Written outside conversation (n + 1)
        (entries ++ [markerEntry outside.sha256 marker conversation (outside.markerTime n)])
  /-- A marker that was there already. -/
  | again {n : Nat} {entries : List (Entry S)} (h : Written outside conversation n entries) :
      Written outside conversation (n + 1) entries

namespace Written

variable {outside : Outside S M} {conversation : String} {n : Nat} {entries : List (Entry S)}

theorem nodup (h : Written outside conversation n entries) : (entries.map Entry.uuid).Nodup := by
  have hconcat : ∀ (entries : List (Entry S)) (entry : Entry S), (entries.map Entry.uuid).Nodup →
      entry.uuid ∉ entries.map Entry.uuid → ((entries ++ [entry]).map Entry.uuid).Nodup := by
    intro entries entry hnodup hnew
    rw [List.map_append]
    refine List.nodup_append.mpr ⟨hnodup, List.nodup_singleton _, ?_⟩
    rintro a ha b hb rfl
    rw [List.mem_singleton.mp hb] at ha
    exact hnew ha
  induction h with
  | nil n => exact List.nodup_nil
  | message h hparent m metadata time hnew ih => exact hconcat _ _ ih hnew
  | marker h marker hleaf hnew ih => exact hconcat _ _ ih hnew
  | again h ih => exact ih

/-- An entry is a message at a position or a marker. -/
theorem cases (h : Written outside conversation n entries) {e : Entry S} (he : e ∈ entries) :
    (∃ m parent metadata time, e = messageEntry outside m conversation parent metadata time ∧
      Position entries parent) ∨
    (∃ marker, ∃ k < n, e = markerEntry outside.sha256 marker conversation
      (outside.markerTime k)) := by
  -- Induction on how the log was written: each rule adds one entry of one of the two kinds.
  induction h with
  | nil n => cases he
  | message h hparent m metadata time hnew ih =>
    rcases List.mem_append.mp he with he | he
    · rcases ih he with ⟨m', parent', metadata', time', heq, hposition⟩ | hmarker
      · exact Or.inl ⟨m', parent', metadata', time', heq, hposition.append⟩
      · exact Or.inr hmarker
    · exact Or.inl ⟨m, _, metadata, time, List.mem_singleton.mp he, hparent.append⟩
  | marker h marker hleaf hnew ih =>
    rcases List.mem_append.mp he with he | he
    · rcases ih he with ⟨m', parent', metadata', time', heq, hposition⟩ | ⟨other, k, hk, rfl⟩
      · exact Or.inl ⟨m', parent', metadata', time', heq, hposition.append⟩
      · exact Or.inr ⟨other, k, Nat.lt_succ_of_lt hk, rfl⟩
    · exact Or.inr ⟨marker, _, Nat.lt_succ_self _, List.mem_singleton.mp he⟩
  | again h ih =>
    rcases ih he with hmessage | ⟨other, k, hk, rfl⟩
    · exact Or.inl hmessage
    · exact Or.inr ⟨other, k, Nat.lt_succ_of_lt hk, rfl⟩

/-- Whoever has the identity of a message is that message, up to volatile fields. -/
theorem of_message_uuid (h : Written outside conversation n entries)
    (hfree : CollisionFree outside) {parent : Option String} {m : M} {e : Entry S}
    (he : e ∈ entries) (huuid : e.uuid = entryId outside.sha256 parent (outside.encode m)) :
    ∃ m' parent' metadata time,
      e = messageEntry outside m' conversation parent' metadata time ∧
      Position entries parent' ∧ parent'.getD "" = parent.getD "" ∧
      JsonTree.Same id (stripped (outside.encode m')) (stripped (outside.encode m)) := by
  rcases h.cases he with ⟨m', parent', metadata, time, rfl, hposition⟩ | ⟨marker, k, _, rfl⟩
  · obtain ⟨hparent, hbody⟩ := hfree.entryId_inj huuid
    exact ⟨m', parent', metadata, time, rfl, hposition, hparent,
      (dumps_stripped_iff (outside.wf m') (outside.wf m)).mp hbody⟩
  · cases marker with
    | leaf leafUuid =>
      exact absurd (hfree.entryId_inj huuid).2.symm (message_ne_marker m _)
    | tombstone deletedUuid =>
      exact absurd (hfree.entryId_inj huuid).2.symm (message_ne_marker m _)

/-- Positions are told apart by the text an identity makes of them. -/
theorem position_inj (h : Written outside conversation n entries) (hfree : CollisionFree outside)
    {parent parent' : Option String} (hparent : Position entries parent)
    (hparent' : Position entries parent') (heq : parent.getD "" = parent'.getD "") :
    parent = parent' := by
  have hnonempty : ∀ u, Position entries (some u) → u ≠ "" := by
    intro u hu
    obtain ⟨e, he, hchained, rfl⟩ := hu u rfl
    rcases h.cases he with ⟨m, p, metadata, time, rfl, _⟩ | ⟨marker, k, _, rfl⟩
    · exact hfree.nonempty _
    · cases marker <;> cases hchained
  cases parent with
  | none =>
    cases parent' with
    | none => rfl
    | some u' => exact absurd heq.symm (hnonempty u' hparent')
  | some u =>
    cases parent' with
    | none => exact absurd heq (hnonempty u hparent)
    | some u' => exact congrArg some heq

/-- A leaf marker is new. -/
theorem leaf_new (h : Written outside conversation n entries) (hfree : CollisionFree outside)
    (htimes : Function.Injective outside.markerTime) (leafUuid : Option String) :
    (markerEntry outside.sha256 (.leaf leafUuid) conversation (outside.markerTime n) :
      Entry S).uuid ∉ entries.map Entry.uuid := by
  intro hmem
  obtain ⟨e, he, huuid⟩ := List.mem_map.mp hmem
  rcases h.cases he with ⟨m, parent, metadata, time, rfl, _⟩ | ⟨marker, k, hk, rfl⟩
  · exact absurd (hfree.entryId_inj huuid).2 (message_ne_marker m _)
  · cases marker with
    | leaf other =>
      have htime : outside.markerTime k = outside.markerTime n := (hfree.entryId_inj huuid).1
      exact absurd (htimes htime) (Nat.ne_of_lt hk)
    | tombstone deletedUuid =>
      exact absurd (hfree.entryId_inj huuid).2.symm (leaf_ne_tombstone _ _)

end Written

/-! ## Section 3: The tip -/

omit [PythonScalar S] in
theorem lastMark_concat (entries : List (Entry S)) (entry : Entry S) :
    lastMark (entries ++ [entry])
      = if entry.type = "leaf" then some entries.length else lastMark entries := by
  unfold lastMark
  rw [List.zipIdx_append, List.filter_append, List.map_append]
  by_cases hleaf : entry.type = "leaf"
  · rw [if_pos hleaf, List.zipIdx_cons, List.filter_cons_of_pos (by simpa using hleaf)]
    simp
  · rw [if_neg hleaf, List.zipIdx_cons, List.filter_cons_of_neg (by simpa using hleaf)]
    simp

omit [PythonScalar S] in
theorem lastMark_lt {entries : List (Entry S)} {mark : Nat} (h : lastMark entries = some mark) :
    mark < entries.length := by
  obtain ⟨item, hmem, rfl⟩ := List.mem_map.mp (List.mem_of_getLast? h)
  have hitem := (List.mem_filter.mp hmem).1
  obtain ⟨hlt, _⟩ := List.getElem?_eq_some_iff.mp (List.mk_mem_zipIdx_iff_getElem?.mp
    (show (item.1, item.2) ∈ entries.zipIdx from hitem))
  exact hlt

omit [PythonScalar S] in
/-- The tip follows the last write: a leaf marker selects it, a chained entry becomes it. -/
theorem activeTip_concat (entries : List (Entry S)) (entry : Entry S) :
    activeTip (entries ++ [entry]) =
      if entry.type = "leaf" then entry.leafUuid.join
      else if entry.chained then some entry.uuid
      else activeTip entries := by
  unfold activeTip
  rw [lastMark_concat]
  -- A leaf sets the tip; what comes after it in the old log no longer counts.
  by_cases hleaf : entry.type = "leaf"
  · rw [if_pos hleaf, if_pos hleaf]
    have hnone : (entries ++ [entry]).drop (entries.length + 1) = [] :=
      List.drop_eq_nil_of_le (by simp)
    dsimp only [Option.elim]
    rw [hnone]
    simp
  · rw [if_neg hleaf, if_neg hleaf]
    -- Otherwise the last mark is in the old part, and only the tail after it has grown.
    have hstart : (lastMark entries).elim 0 (· + 1) ≤ entries.length := by
      cases hmark : lastMark entries with
      | none => exact Nat.zero_le _
      | some mark => exact lastMark_lt hmark
    dsimp only
    rw [List.drop_append_of_le_length hstart, List.filter_append, List.map_append]
    -- A message ends the tail; a tombstone leaves the tip to the old one.
    by_cases hchained : entry.chained = true
    · rw [if_pos hchained, List.filter_cons_of_pos hchained]
      simp
    · rw [if_neg hchained, List.filter_cons_of_neg (by simpa using hchained)]
      have hmark : ((lastMark entries).bind fun mark => (entries ++ [entry])[mark]?)
          = (lastMark entries).bind fun mark => entries[mark]? := by
        cases hmark : lastMark entries with
        | none => rfl
        | some mark => exact List.getElem?_append_left (lastMark_lt hmark)
      rw [hmark]
      simp

/-! ## Section 4: Chains -/

/-- The entries from the root to a position. -/
inductive Chain (entries : List (Entry S)) : Option String → List (Entry S) → Prop
  | root : Chain entries none []
  | entry {parent : Option String} {before : List (Entry S)} {e : Entry S}
      (h : Chain entries parent before) (he : e ∈ entries) (hparent : e.parentUuid = some parent) :
      Chain entries (some e.uuid) (before ++ [e])

namespace Chain

variable {entries more : List (Entry S)} {tip : Option String} {chain : List (Entry S)}

omit [PythonScalar S] in
theorem mem (h : Chain entries tip chain) {e : Entry S} (he : e ∈ chain) : e ∈ entries := by
  induction h with
  | root => cases he
  | entry h hmem hparent ih =>
    rcases List.mem_append.mp he with he | he
    · exact ih he
    · rw [List.mem_singleton.mp he]
      exact hmem

omit [PythonScalar S] in
/-- A chain stays where it is when entries are appended. -/
theorem append (h : Chain entries tip chain) : Chain (entries ++ more) tip chain := by
  induction h with
  | root => exact .root
  | entry h hmem hparent ih => exact ih.entry (List.mem_append_left _ hmem) hparent

omit [PythonScalar S] in
/-- Where identities are unique there is one chain to a position. -/
theorem unique (h : Chain entries tip chain) (hnodup : (entries.map Entry.uuid).Nodup)
    {other : List (Entry S)} (hother : Chain entries tip other) : other = chain := by
  have hone : ∀ e ∈ entries, ∀ e' ∈ entries, e.uuid = e'.uuid → e = e' :=
    fun e he e' he' heq => List.inj_on_of_nodup_map hnodup he he' heq
  induction h generalizing other with
  | root =>
    cases hother
    rfl
  | @entry parent before e h hmem hparent ih =>
    generalize htip : some e.uuid = tip at hother
    cases hother with
    | root => cases htip
    | @entry parent' before' e' h' hmem' hparent' =>
      obtain rfl := hone e hmem e' hmem' (Option.some.inj htip)
      obtain rfl := Option.some.inj (hparent.symm.trans hparent')
      rw [ih h']

end Chain

omit [PythonScalar S] in
/-- What is found under an identity. -/
theorem chainedEntries_get? {entries : List (Entry S)} (hnodup : (entries.map Entry.uuid).Nodup)
    {e : Entry S} (he : e ∈ entries) (hchained : e.chained = true) :
    (chainedEntries entries).get? e.uuid = some e := by
  unfold chainedEntries
  induction entries using List.reverseRecOn with
  | nil => cases he
  | append_singleton entries last ih =>
    rw [List.map_append, List.nodup_append] at hnodup
    obtain ⟨hnodup, _, hlast⟩ := hnodup
    rw [List.foldl_append, List.foldl_cons, List.foldl_nil]
    rcases List.mem_append.mp he with he | he
    · have hne : e.uuid ≠ last.uuid :=
        hlast e.uuid (List.mem_map_of_mem he) last.uuid (by simp)
      split
      · rw [Dict.get?_set_ne _ _ hne]
        exact ih hnodup he
      · exact ih hnodup he
    · obtain rfl := List.mem_singleton.mp he
      rw [if_pos hchained, Dict.get?_set_self]

omit [PythonScalar S] in
/-- The walk along the parent links returns the chain, less what is buried. -/
theorem walk_eq {entries : List (Entry S)} (hnodup : (entries.map Entry.uuid).Nodup)
    (hidden : List String) {tip : Option String} {chain : List (Entry S)}
    (h : Chain entries tip chain) (hchain : (chain.map Entry.uuid).Nodup) {fuel : Nat}
    (hfuel : chain.length ≤ fuel) {seen : List String} (hseen : ∀ e ∈ chain, e.uuid ∉ seen) :
    (walk (chainedEntries entries) hidden fuel seen tip).reverse
      = chain.filter fun e => e.uuid ∉ hidden := by
  -- Induction on the chain from its root: the walk meets its last entry first.
  induction h generalizing fuel seen with
  | root => cases fuel <;> rfl
  | @entry parent before e h he hparent ih =>
    rw [List.length_append, List.length_singleton] at hfuel
    obtain ⟨fuel, rfl⟩ : ∃ more, fuel = more + 1 := ⟨fuel - 1, by omega⟩
    rw [List.map_append, List.nodup_append] at hchain
    obtain ⟨hbefore, _, hlast⟩ := hchain
    have hget := chainedEntries_get? hnodup he (by unfold Entry.chained; rw [hparent]; rfl)
    have hnew : e.uuid ∉ seen := hseen e (List.mem_append_right _ List.mem_cons_self)
    -- Ids do not repeat on a chain, so the rest has not been seen.
    have hunseen : ∀ other ∈ before, other.uuid ∉ e.uuid :: seen := by
      intro other hother
      rw [List.mem_cons, not_or]
      exact ⟨hlast other.uuid (List.mem_map_of_mem hother) e.uuid (by simp),
        hseen other (List.mem_append_left _ hother)⟩
    have hrest := ih hbefore (Nat.le_of_succ_le_succ hfuel) hunseen
    unfold walk
    rw [hget]
    dsimp only
    rw [if_neg hnew, hparent, List.filter_append]
    -- A buried entry is walked through and left out.
    by_cases hburied : e.uuid ∈ hidden
    · rw [if_pos hburied, List.filter_cons_of_neg (by simpa using hburied)]
      simpa using hrest
    · rw [if_neg hburied, List.filter_cons_of_pos (by simpa using hburied), List.reverse_cons]
      exact congrArg (· ++ [e]) hrest

namespace Written

variable {outside : Outside S M} {conversation : String} {n : Nat} {entries : List (Entry S)}

/-- There is a chain to every position, in the order of the entries. -/
theorem chain (h : Written outside conversation n entries) {tip : Option String}
    (htip : Position entries tip) :
    ∃ chain, Chain entries tip chain ∧ chain.Sublist entries := by
  -- Induction on how the log was written; a tip is an old entry, or the one just recorded.
  induction h generalizing tip with
  | nil n =>
    cases tip with
    | none => exact ⟨[], .root, List.Sublist.refl _⟩
    | some u =>
      obtain ⟨e, he, _⟩ := htip u rfl
      cases he
  | @message n entries h parent hparent m metadata time hnew ih =>
    cases tip with
    | none => exact ⟨[], .root, List.nil_sublist _⟩
    | some u =>
      obtain ⟨e, he, hchained, rfl⟩ := htip u rfl
      rcases List.mem_append.mp he with he | he
      · have hold : Position entries (some e.uuid) := fun u hu =>
          ⟨e, he, hchained, Option.some.inj hu⟩
        obtain ⟨chain, hchain, hsub⟩ := ih hold
        exact ⟨chain, hchain.append, hsub.trans (List.sublist_append_left _ _)⟩
      · rw [List.mem_singleton.mp he]
        -- The new entry extends the chain of its parent.
        obtain ⟨chain, hchain, hsub⟩ := ih hparent
        exact ⟨_, hchain.append.entry (List.mem_append_right _ List.mem_cons_self) rfl,
          hsub.append (List.Sublist.refl _)⟩
  | @marker n entries h marker hleaf hnew ih =>
    -- A marker is on no chain.
    have hunchained : (markerEntry outside.sha256 marker conversation (outside.markerTime n) :
        Entry S).chained = false := by cases marker <;> rfl
    obtain ⟨chain, hchain, hsub⟩ := ih (htip.of_concat hunchained)
    exact ⟨chain, hchain.append, hsub.trans (List.sublist_append_left _ _)⟩
  | again h ih => exact ih htip

/-- **The active branch** is the chain to the tip, less what is buried. -/
theorem activeBranch_eq (h : Written outside conversation n entries) {tip : Option String}
    (htip : Position entries tip) (hactive : activeTip entries = tip) :
    ∃ chain, Chain entries tip chain ∧ (∀ other, Chain entries tip other → other = chain) ∧
      chain.Sublist entries ∧
      activeBranch entries = chain.filter fun e => e.uuid ∉ buried entries := by
  obtain ⟨chain, hchain, hsub⟩ := h.chain htip
  refine ⟨chain, hchain, fun other hother => hchain.unique h.nodup hother, hsub, ?_⟩
  unfold activeBranch
  rw [hactive]
  exact walk_eq h.nodup _ hchain (h.nodup.sublist (hsub.map _)) hsub.length_le
    fun _ _ => List.not_mem_nil

end Written

/-! ## Section 5: Writing -/

/-- The log of a conversation is one that writers wrote, and what was seen is what is there. -/
structure LogOk (outside : Outside S M) (conversation : String) (log : Log S) : Prop where
  written : Written outside conversation log.markers (log.entries conversation)
  seen : ∀ u, (conversation, u) ∈ log.store.seen ↔ u ∈ (log.entries conversation).map Entry.uuid

/-- A writer stands at the tip of its log. -/
structure AtTip (outside : Outside S M) (w : TranscriptWriter) (log : Log S) : Prop where
  ok : LogOk outside w.conversationId log
  position : Position (log.entries w.conversationId) w.parentUuid
  tip : activeTip (log.entries w.conversationId) = w.parentUuid

omit [PythonScalar S] in
theorem store_append_old {t : MemoryTranscript (Entry S)} {entry : Entry S}
    (h : key entry ∈ t.seen) : t.append entry = (false, t) := if_pos h

omit [PythonScalar S] in
theorem store_append_new {t : MemoryTranscript (Entry S)} {entry : Entry S}
    (h : key entry ∉ t.seen) :
    (t.append entry).1 = true ∧
      (t.append entry).2.read entry.conversationId none
        = t.read entry.conversationId none ++ [entry] ∧
      ∀ k, k ∈ (t.append entry).2.seen ↔ k = key entry ∨ k ∈ t.seen := by
  unfold MemoryTranscript.append
  rw [if_neg h]
  refine ⟨rfl, ?_, fun k => List.mem_cons⟩
  unfold MemoryTranscript.read
  show ((t.rows.set entry.conversationId _).getD entry.conversationId []).map Prod.snd = _
  rw [Dict.getD_set, if_pos rfl, List.map_append]
  rfl

variable {outside : Outside S M} {conversation : String} {log : Log S} {w : TranscriptWriter}

theorem LogOk.seen_append (h : LogOk outside conversation log) {entry : Entry S}
    (hconversation : entry.conversationId = conversation)
    (hnew : entry.uuid ∉ (log.entries conversation).map Entry.uuid) :
    (log.store.append entry).1 = true ∧
      (log.store.append entry).2.read conversation none = log.entries conversation ++ [entry] ∧
      ∀ u, (conversation, u) ∈ (log.store.append entry).2.seen ↔
        u ∈ (log.entries conversation ++ [entry]).map Entry.uuid := by
  subst hconversation
  have hkey : key entry ∉ log.store.seen := fun hmem => hnew ((h.seen entry.uuid).mp hmem)
  obtain ⟨hreport, hread, hseen⟩ := store_append_new hkey
  refine ⟨hreport, hread, fun u => ?_⟩
  rw [hseen, h.seen, List.map_append, List.mem_append, or_comm]
  refine or_congr_right ?_
  rw [List.map_singleton, List.mem_singleton]
  exact ⟨fun heq => (Prod.mk.inj heq).2, fun heq => by rw [heq]; rfl⟩

/-- What a marker does to a log: it is appended, or was there already. -/
theorem appendMarker_cases (h : LogOk outside w.conversationId log) (marker : Marker)
    (hleaf : ∀ leafUuid, marker = .leaf leafUuid →
      Position (log.entries w.conversationId) leafUuid) :
    let entry := markerEntry outside.sha256 marker w.conversationId
      (outside.markerTime log.markers)
    let log' := w.appendMarker outside log marker
    LogOk outside w.conversationId log' ∧
      ((entry.uuid ∉ (log.entries w.conversationId).map Entry.uuid ∧
          log'.entries w.conversationId = log.entries w.conversationId ++ [entry]) ∨
        (entry.uuid ∈ (log.entries w.conversationId).map Entry.uuid ∧
          log'.entries w.conversationId = log.entries w.conversationId)) := by
  intro entry log'
  have hconversation : entry.conversationId = w.conversationId := by cases marker <;> rfl
  -- The store drops an entry whose key it has seen.
  by_cases hnew : entry.uuid ∈ (log.entries w.conversationId).map Entry.uuid
  · have hkey : key entry ∈ log.store.seen := by
      have hseen := (h.seen entry.uuid).mpr hnew
      rwa [← hconversation] at hseen
    have hstore : log'.store = log.store := congrArg Prod.snd (store_append_old hkey)
    have hentries : log'.entries w.conversationId = log.entries w.conversationId := by
      unfold Log.entries
      rw [hstore]
    refine ⟨⟨?_, ?_⟩, Or.inr ⟨hnew, hentries⟩⟩
    · rw [hentries]
      exact h.written.again
    · rw [hentries, hstore]
      exact h.seen
  · obtain ⟨_, hread, hseen⟩ := h.seen_append hconversation hnew
    have hentries : log'.entries w.conversationId = log.entries w.conversationId ++ [entry] :=
      hread
    refine ⟨⟨?_, ?_⟩, Or.inl ⟨hnew, hentries⟩⟩
    · rw [hentries]
      exact h.written.marker marker hleaf hnew
    · rw [hentries]
      exact hseen

/-- **Rewind**: a leaf marker is appended, and selects the tip. -/
theorem rewind_atTip (hfree : CollisionFree outside)
    (htimes : Function.Injective outside.markerTime) (h : LogOk outside w.conversationId log)
    {leafUuid : Option String} (hleaf : Position (log.entries w.conversationId) leafUuid) :
    AtTip outside (w.rewind outside log leafUuid).1 (w.rewind outside log leafUuid).2 ∧
      ∃ entry, entry.type = "leaf" ∧ entry.chained = false ∧
        (w.rewind outside log leafUuid).2.entries w.conversationId
          = log.entries w.conversationId ++ [entry] := by
  have hcases := appendMarker_cases h (.leaf leafUuid) fun other heq => by
    rwa [← Marker.leaf.inj heq]
  obtain ⟨hok, ⟨_, hentries⟩ | ⟨hold, _⟩⟩ := hcases
  · refine ⟨⟨hok, ?_, ?_⟩, _, rfl, rfl, hentries⟩
    · show Position ((w.appendMarker outside log (.leaf leafUuid)).entries w.conversationId)
        leafUuid
      rw [hentries]
      exact hleaf.append
    · show activeTip ((w.appendMarker outside log (.leaf leafUuid)).entries w.conversationId)
        = leafUuid
      rw [hentries, activeTip_concat]
      rfl
  · exact absurd hold (h.written.leaf_new hfree htimes leafUuid)

omit [PythonScalar S] in
theorem bodyKind_encode (outside : Outside S M) (m : M) :
    bodyKind (outside.encode m) = "request" ∨ bodyKind (outside.encode m) = "response" := by
  unfold bodyKind
  rcases outside.kind m with hkind | hkind
  · left
    rw [hkind]
  · right
    rw [hkind]

/-- **Record**: the message is appended, or it is there already and a leaf marker selects it. -/
theorem record_atTip (hfree : CollisionFree outside)
    (htimes : Function.Injective outside.markerTime) (h : LogOk outside w.conversationId log)
    (hposition : Position (log.entries w.conversationId) w.parentUuid) (m : M) :
    let u := entryId outside.sha256 w.parentUuid (outside.encode m)
    let r := w.record outside log m
    AtTip outside r.2.1 r.2.2 ∧ r.2.1 = { w with parentUuid := some u } ∧
      ((r.1 = true ∧ u ∉ (log.entries w.conversationId).map Entry.uuid ∧ ∃ metadata time,
          r.2.2.entries w.conversationId = log.entries w.conversationId
            ++ [messageEntry outside m w.conversationId w.parentUuid metadata time]) ∨
        (r.1 = false ∧ u ∈ (log.entries w.conversationId).map Entry.uuid ∧ ∃ entry,
          entry.type = "leaf" ∧ entry.chained = false ∧
          r.2.2.entries w.conversationId = log.entries w.conversationId ++ [entry])) := by
  intro u r
  let entry := messageEntry outside m w.conversationId w.parentUuid [("branch_id", w.branchId)]
    (outside.messageTime log.messages)
  let read : Log S := { log with messages := log.messages + 1 }
  have hread : LogOk outside w.conversationId read := ⟨h.written, h.seen⟩
  -- The identity is there already: the writer rewinds to it. Otherwise it is stored.
  by_cases hold : u ∈ (log.entries w.conversationId).map Entry.uuid
  · have hr : r = (false, w.rewind outside read (some u)) := by
      have hstore : log.store.append entry = (false, log.store) :=
        store_append_old ((h.seen u).mpr hold)
      show w.record outside log m = _
      unfold TranscriptWriter.record
      dsimp only
      rw [hstore]
      rfl
    -- An entry under a message's identity is that message, so it is a place to rewind to.
    have hthere : Position (read.entries w.conversationId) (some u) := by
      intro v hv
      obtain ⟨e, he, huuid⟩ := List.mem_map.mp hold
      obtain ⟨_, _, _, _, heq, _⟩ := h.written.of_message_uuid hfree he huuid
      exact ⟨e, he, by rw [heq]; rfl, huuid.trans (Option.some.inj hv)⟩
    obtain ⟨htip, hentries⟩ := rewind_atTip hfree htimes hread hthere
    rw [hr]
    exact ⟨htip, rfl, Or.inr ⟨rfl, hold, hentries⟩⟩
  · have hconversation : entry.conversationId = w.conversationId := rfl
    obtain ⟨hreport, hstored, hseen⟩ := h.seen_append hconversation hold
    let after : Log S := { read with store := (log.store.append entry).2 }
    have hr : r = (true, { w with parentUuid := some u }, after) := by
      show w.record outside log m = _
      unfold TranscriptWriter.record
      dsimp only
      rw [if_pos hreport]
      rfl
    have hentries : after.entries w.conversationId = log.entries w.conversationId ++ [entry] :=
      hstored
    -- A message is never of the kind of a leaf, so it becomes the tip by being last.
    have hkind : entry.type ≠ "leaf" := by
      rcases bodyKind_encode outside m with hkind | hkind
      · show bodyKind (outside.encode m) ≠ "leaf"
        rw [hkind]
        decide
      · show bodyKind (outside.encode m) ≠ "leaf"
        rw [hkind]
        decide
    rw [hr]
    refine ⟨⟨⟨?_, ?_⟩, ?_, ?_⟩, rfl, Or.inl ⟨rfl, hold, _, _, hentries⟩⟩
    · show Written outside w.conversationId log.markers (after.entries w.conversationId)
      rw [hentries]
      exact h.written.message hposition m _ _ hold
    · show ∀ v, (w.conversationId, v) ∈ after.store.seen ↔
        v ∈ (after.entries w.conversationId).map Entry.uuid
      rw [hentries]
      exact hseen
    · intro v hv
      show ∃ e ∈ after.entries w.conversationId, _
      rw [hentries]
      exact ⟨entry, List.mem_append_right _ List.mem_cons_self, rfl, Option.some.inj hv⟩
    · show activeTip (after.entries w.conversationId) = some u
      rw [hentries, activeTip_concat, if_neg hkind]
      rfl

/-! ## Section 6: A writer's run -/

/-- Nothing is stored of a conversation. -/
structure EmptyConversation (log : Log S) (conversation : String) : Prop where
  entries : log.entries conversation = []
  seen : ∀ u, (conversation, u) ∉ log.store.seen

theorem plain_collisionFree : CollisionFree plainOutside where
  injective text text' heq := by
    have hlist := congrArg String.toList heq
    simp only [plainOutside, String.toList_append] at hlist
    exact String.toList_injective (List.append_cancel_left hlist)
  nonempty text heq := by
    have hlist := congrArg String.toList heq
    simp [plainOutside, String.toList_append] at hlist

theorem plain_times : Function.Injective plainOutside.markerTime :=
  fun _ _ heq => PyScalar.natRepr_injective heq

end Semora
