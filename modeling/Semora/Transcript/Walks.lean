import Semora.Framework.Links
import Semora.Transcript.Entries

/-! # Chain Walks over Any Log

    `active_branch` and `messages_at` walk the parent links of whatever
    entries there are: parents may be missing or lead back, identities may
    repeat, markers may name anything. Both loops end, and what they return is
    told by the nearest ancestors that count: those that are not buried, and
    for `messages_at` those of them that carry a message.

    The two pick their tips differently, and filter differently. Started at the
    last entry of the active branch, `messages_at` selects the active branch's
    messages. -/

namespace Semora

variable {S M : Type} {entries : List (Entry S)}

/-! ## Section 1: What the loops walk over -/

/-- `chained`, and `entry.get("parent_uuid")`. -/
def links (entries : List (Entry S)) : Links String (Entry S) where
  look := (chainedEntries entries).get?
  parent e := e.parentUuid.join

/-- The entries whose messages `messages_at` decodes. -/
def selectedAt (entries : List (Entry S)) (leafUuid : Option String) : List (Entry S) :=
  (walk (chainedEntries entries) (buried entries) entries.length [] leafUuid).reverse.filter
    fun e => e.body?.isSome

/-- What is found under an identity has that identity, and is one of the entries. -/
theorem chainedEntries_found {u : String} {e : Entry S}
    (h : (chainedEntries entries).get? u = some e) : e ∈ entries ∧ e.uuid = u := by
  unfold chainedEntries at h
  induction entries using List.reverseRecOn with
  | nil => cases h
  | append_singleton entries last ih =>
    rw [List.foldl_append, List.foldl_cons, List.foldl_nil] at h
    split at h
    · rw [Dict.get?_set] at h
      split at h
      · next hu =>
        obtain rfl := Option.some.inj h
        exact ⟨List.mem_append_right _ List.mem_cons_self, hu.symm⟩
      · exact ⟨List.mem_append_left _ (ih h).1, (ih h).2⟩
    · exact ⟨List.mem_append_left _ (ih h).1, (ih h).2⟩

/-- No more entries are found than there are. -/
theorem chainedEntries_length (entries : List (Entry S)) :
    (chainedEntries entries).items.length ≤ entries.length := by
  have hsub : (chainedEntries entries).items.map Prod.fst ⊆ entries.map Entry.uuid := by
    intro u hu
    obtain ⟨⟨u, e⟩, hitem, rfl⟩ := List.mem_map.mp hu
    obtain ⟨he, hname⟩ := chainedEntries_found (Dict.get?_of_mem hitem)
    exact List.mem_map.mpr ⟨e, he, hname⟩
  have hlength := ((chainedEntries entries).nodup.subperm hsub).length_le
  rwa [List.length_map, List.length_map] at hlength

/-- The identities that were not seen yet. -/
def unseen (found : Dict String (Entry S)) (seen : List String) : List String :=
  (found.items.map Prod.fst).filter fun u => u ∉ seen

theorem unseen_cons {found : Dict String (Entry S)} {seen : List String} {u : String} {e : Entry S}
    (hfound : found.get? u = some e) (hnew : u ∉ seen) :
    (unseen found (u :: seen)).length < (unseen found seen).length := by
  have hmore : unseen found (u :: seen) = (unseen found seen).filter fun other => other ≠ u := by
    unfold unseen
    rw [List.filter_filter]
    refine List.filter_congr fun other _ => ?_
    simp
  have hmem : u ∈ unseen found seen :=
    List.mem_filter.mpr ⟨List.mem_map.mpr ⟨(u, e), Dict.mem_of_find hfound, rfl⟩,
      decide_eq_true hnew⟩
  rw [hmore, List.length_filter_lt_length_iff_exists]
  exact ⟨u, hmem, by simp⟩

/-- **The fuel suffices**: the loop ends by itself. -/
theorem walk_walks (hidden : List String) (fuel : Nat) (seen : List String) (tip : Option String)
    (hfuel : (unseen (chainedEntries entries) seen).length ≤ fuel) :
    ∃ n ≤ fuel, (links entries).Walks (fun u _ => u ∈ hidden) seen tip n
      (walk (chainedEntries entries) hidden fuel seen tip) := by
  -- Induction on the fuel: each step sees one more entry, so there is enough for every unseen one.
  induction fuel generalizing seen tip with
  | zero =>
    refine ⟨0, Nat.le_refl _, ?_⟩
    cases tip with
    | none => exact .root seen
    | some u =>
      cases hfound : (chainedEntries entries).get? u with
      | none => exact .missing hfound
      | some e =>
        refine .again (not_not.mp fun hnew => ?_)
        exact Nat.not_lt_zero _ (Nat.lt_of_lt_of_le (unseen_cons hfound hnew) hfuel)
  | succ fuel ih =>
    cases tip with
    | none => exact ⟨0, Nat.zero_le _, .root seen⟩
    | some u =>
      unfold walk
      cases hfound : (chainedEntries entries).get? u with
      | none => exact ⟨0, Nat.zero_le _, .missing hfound⟩
      | some e =>
        dsimp only
        by_cases hseen : u ∈ seen
        · rw [if_pos hseen]
          exact ⟨0, Nat.zero_le _, .again hseen⟩
        · rw [if_neg hseen]
          have hless := Nat.lt_of_lt_of_le (unseen_cons hfound hseen) hfuel
          obtain ⟨n, hn, hrest⟩ := ih (u :: seen) e.parentUuid.join (Nat.le_of_lt_succ hless)
          refine ⟨n + 1, Nat.succ_le_succ hn, ?_⟩
          -- A buried entry is walked through, and not shown.
          by_cases hburied : u ∈ hidden
          · rw [if_pos hburied]
            exact .skip hfound hseen hburied hrest
          · rw [if_neg hburied]
            exact .take hfound hseen hburied hrest

/-! ## Section 2: What they return -/

/-- A walk from a tip returned this, from the root on. -/
structure Returns (entries : List (Entry S)) (counts : String → Entry S → Prop)
    (tip : Option String) (branch : List (Entry S)) : Prop where
  /-- The loop ends, with this and nothing else, after no more turns than there are entries. -/
  ends : ∃ n ≤ entries.length,
    (links entries).Walks (fun u e => ¬ counts u e) [] tip n branch.reverse ∧
      ∀ n' other, (links entries).Walks (fun u e => ¬ counts u e) [] tip n' other →
        n' = n ∧ other = branch.reverse
  /-- No identity is returned twice. -/
  once : (branch.map Entry.uuid).Nodup
  /-- The entry before each is its nearest ancestor that counts. -/
  ordered : branch.IsChain fun above e => (links entries).Nearest counts e.parentUuid.join above
  /-- The last one is the nearest to the tip. -/
  tip : ∀ e, branch.getLast? = some e → (links entries).Nearest counts tip e

theorem Returns.of_walks {counts : String → Entry S → Prop} {tip : Option String} {n : Nat}
    {found : List (Entry S)} (hn : n ≤ entries.length)
    (h : (links entries).Walks (fun u e => ¬ counts u e) [] tip n found) :
    Returns entries counts tip found.reverse := by
  have hcounts : (fun u e => ¬ ¬ counts u e) = counts := by
    funext u e
    exact propext not_not
  refine ⟨⟨n, hn, ?_⟩, ?_, ?_, fun e he => ?_⟩
  · rw [List.reverse_reverse]
    exact ⟨h, fun n' other hother => h.unique hother⟩
  · rw [List.map_reverse, List.nodup_reverse]
    exact (h.keys_nodup fun u e hfound => (chainedEntries_found hfound).2).1
  · have hchain := h.isChain
    rw [hcounts] at hchain
    exact List.isChain_reverse.mpr hchain
  · rw [List.getLast?_reverse] at he
    cases found with
    | nil => cases he
    | cons first rest =>
      obtain rfl := Option.some.inj he
      have hnearest := h.nearest
      rwa [hcounts] at hnearest

/-- An entry that is not buried. -/
def Shown (entries : List (Entry S)) (u : String) (_ : Entry S) : Prop := u ∉ buried entries

/-- An entry that is not buried and carries a message. -/
def ShownMessage (entries : List (Entry S)) (u : String) (e : Entry S) : Prop :=
  u ∉ buried entries ∧ e.body?.isSome = true

theorem walks_shown (entries : List (Entry S)) (tip : Option String) :
    ∃ n ≤ entries.length, (links entries).Walks (fun u e => ¬ Shown entries u e) [] tip n
      (walk (chainedEntries entries) (buried entries) entries.length [] tip) := by
  have hfuel : (unseen (chainedEntries entries) []).length ≤ entries.length := by
    refine Nat.le_trans (List.length_filter_le _ _) ?_
    rw [List.length_map]
    exact chainedEntries_length entries
  have hhidden : (fun u e => ¬ Shown entries u e) = fun u (_ : Entry S) => u ∈ buried entries := by
    funext u e
    exact propext not_not
  rw [hhidden]
  exact walk_walks (buried entries) entries.length [] tip hfuel

theorem activeBranch_returns (entries : List (Entry S)) :
    Returns entries (Shown entries) (activeTip entries) (activeBranch entries) := by
  obtain ⟨n, hn, hwalks⟩ := walks_shown entries (activeTip entries)
  exact .of_walks hn hwalks

theorem selectedAt_returns (entries : List (Entry S)) (leafUuid : Option String) :
    Returns entries (ShownMessage entries) leafUuid (selectedAt entries leafUuid) := by
  obtain ⟨n, hn, hwalks⟩ := walks_shown entries leafUuid
  have hfilter := hwalks.filter (p := fun e => e.body?.isSome)
  have hhidden : (fun u e => ¬ Shown entries u e ∨ e.body?.isSome = false)
      = fun u e => ¬ ShownMessage entries u e := by
    funext u e
    refine propext ?_
    rw [ShownMessage, not_and_or, Bool.not_eq_true]
    rfl
  rw [hhidden] at hfilter
  unfold selectedAt
  rw [List.filter_reverse]
  exact .of_walks hn hfilter

theorem filter_body (branch : List (Entry S)) :
    (branch.filter fun e => e.body?.isSome).filterMap Entry.body? =
      branch.filterMap Entry.body? := by
  rw [List.filterMap_filter]
  refine List.filterMap_congr fun e _ => ?_
  cases e.body? <;> rfl

/-- `messages_at` decodes what it selects. -/
theorem messagesAt_eq (outside : Outside S M) (entries : List (Entry S))
    (leafUuid : Option String) :
    messagesAt outside entries leafUuid =
      if leafUuid.any fun tip => ((chainedEntries entries).get? tip).isNone then none
      else some (((selectedAt entries leafUuid).filterMap Entry.body?).map outside.decode) := by
  unfold messagesAt selectedAt
  rw [filter_body]

/-- **From the last entry of the active branch** `messages_at` selects the messages of the active
    branch. -/
theorem selectedAt_last {e : Entry S} (h : (activeBranch entries).getLast? = some e) :
    (chainedEntries entries).get? e.uuid = some e ∧
      selectedAt entries (some e.uuid) = (activeBranch entries).filter fun e => e.body?.isSome := by
  obtain ⟨n, hn, hwalks⟩ := walks_shown entries (activeTip entries)
  unfold activeBranch at h ⊢
  generalize walk (chainedEntries entries) (buried entries) entries.length [] (activeTip entries)
    = found at h hwalks ⊢
  rw [List.getLast?_reverse] at h
  cases found with
  | nil => cases h
  | cons first rest =>
    obtain rfl := Option.some.inj h
    obtain ⟨u, n', hfound, hfirst⟩ := hwalks.from_first
    obtain rfl : first.uuid = u := (chainedEntries_found hfound).2
    obtain ⟨m, _, hat⟩ := walks_shown entries (some first.uuid)
    refine ⟨hfound, ?_⟩
    unfold selectedAt
    rw [(hfirst.unique hat).2]

/-! ## Section 3: Any log -/

/-- **Chain walks** over any entries: both loops end, return no identity twice, and go from each
    entry to its nearest ancestor that counts. For `active_branch`, and for the walk of
    `messages_at`, these are the entries that are not buried, for what `messages_at` selects those
    of them that carry a message. At the last entry of the active branch `messages_at` selects the
    bodies that `messages_of` does. -/
theorem chain_walks (entries : List (Entry S)) :
    Returns entries (Shown entries) (activeTip entries) (activeBranch entries) ∧
    (∀ leafUuid, ∃ walked, Returns entries (Shown entries) leafUuid walked ∧
      selectedAt entries leafUuid = walked.filter fun e => e.body?.isSome) ∧
    (∀ leafUuid, Returns entries (ShownMessage entries) leafUuid (selectedAt entries leafUuid)) ∧
    (∀ (outside : Outside S M) leafUuid, messagesAt outside entries leafUuid =
      if leafUuid.any fun tip => ((chainedEntries entries).get? tip).isNone then none
      else some (((selectedAt entries leafUuid).filterMap Entry.body?).map outside.decode)) ∧
    ∀ e, (activeBranch entries).getLast? = some e →
      (selectedAt entries (some e.uuid)).filterMap Entry.body?
        = (activeBranch entries).filterMap Entry.body? ∧
      ∀ outside : Outside S M,
        messagesAt outside entries (some e.uuid) = some (messagesOf outside entries) := by
  refine ⟨activeBranch_returns entries, fun leafUuid => ?_, selectedAt_returns entries,
    fun outside leafUuid => messagesAt_eq outside entries leafUuid, fun e he => ?_⟩
  · obtain ⟨n, hn, hwalks⟩ := walks_shown entries leafUuid
    exact ⟨_, .of_walks hn hwalks, rfl⟩
  · obtain ⟨hfound, hselected⟩ := selectedAt_last he
    -- From its own last entry the branch is walked as from the tip.
    have hbodies : (selectedAt entries (some e.uuid)).filterMap Entry.body?
        = (activeBranch entries).filterMap Entry.body? := by
      rw [hselected, filter_body]
    refine ⟨hbodies, fun outside => ?_⟩
    rw [messagesAt_eq, if_neg (by simp [hfound]), hbodies]
    rfl

/-- A message, a chained entry without one, and a message below it. -/
def messagelessParent : List (Entry PyScalar) :=
  [{ uuid := "a", conversationId := "c1", type := "request", timestamp := "", parentUuid := some none,
     message := some (.obj []) },
   { uuid := "b", conversationId := "c1", type := "note", timestamp := "",
     parentUuid := some (some "a") },
   { uuid := "c", conversationId := "c1", type := "request", timestamp := "",
     parentUuid := some (some "b"), message := some (.obj []) }]

/-- What `messages_at` selects does not go from each entry to its nearest ancestor that is not
    buried: one without a message is passed over. -/
theorem messageless_parent_passed :
    ¬ ∀ (entries : List (Entry PyScalar)) (leafUuid : Option String),
      (selectedAt entries leafUuid).IsChain fun above e =>
        (links entries).Nearest (Shown entries) e.parentUuid.join above := by
  intro hall
  have hchain := hall messagelessParent (some "c")
  have hselected : selectedAt messagelessParent (some "c")
      = [messagelessParent[0], messagelessParent[2]] := rfl
  rw [hselected, List.isChain_pair] at hchain
  have hnearest : (links messagelessParent).Nearest (Shown messagelessParent) (some "b")
      messagelessParent[1] := .here rfl (by simp [Shown, buried, messagelessParent])
  have huuid := congrArg Entry.uuid (hchain.unique hnearest)
  exact absurd huuid (by decide)

end Semora
