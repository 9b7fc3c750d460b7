import Semora.Transcript.Branch

/-! # Several Writers of One Transcript

    Attempts write to one log, each through a branch of its own that it opened
    at its own time. Nothing tells a branch that others have moved the tip: it
    goes on from where it stands. So of a log with several writers it holds
    only that every conversation is one that writers wrote (`WellKept`), and
    of each branch that it is anchored in it.

    A write of one branch appends to its own conversation and leaves the
    others alone (`Apart`); it moves the tip to where the branch stands. -/

namespace Semora

variable {S M : Type} [PythonScalar S] {outside : Outside S M}

/-! ## Section 1: Conversations apart -/

/-- What a writer of one conversation leaves of the others. -/
structure Apart (conversation : String) (log log' : Log S) : Prop where
  entries : ∀ other ≠ conversation, log'.entries other = log.entries other
  seen : ∀ other ≠ conversation, ∀ u, (other, u) ∈ log'.store.seen ↔ (other, u) ∈ log.store.seen
  markers : log.markers ≤ log'.markers

section apart

variable {conversation : String} {log log' log'' : Log S}

omit [PythonScalar S] in
theorem Apart.refl : Apart conversation log log :=
  ⟨fun _ _ => rfl, fun _ _ _ => Iff.rfl, Nat.le_refl _⟩

omit [PythonScalar S] in
theorem Apart.trans (h : Apart conversation log log') (h' : Apart conversation log' log'') :
    Apart conversation log log'' where
  entries other hother := (h'.entries other hother).trans (h.entries other hother)
  seen other hother u := (h'.seen other hother u).trans (h.seen other hother u)
  markers := Nat.le_trans h.markers h'.markers

omit [PythonScalar S] in
/-- An entry that is appended belongs to its conversation. -/
theorem store_append_apart (t : MemoryTranscript (Entry S)) (entry : Entry S) {other : String}
    (hother : other ≠ entry.conversationId) :
    (t.append entry).2.read other none = t.read other none ∧
      ∀ u, (other, u) ∈ (t.append entry).2.seen ↔ (other, u) ∈ t.seen := by
  unfold MemoryTranscript.append
  split
  · exact ⟨rfl, fun _ => Iff.rfl⟩
  · refine ⟨?_, fun u => ?_⟩
    · unfold MemoryTranscript.read
      show ((t.rows.set entry.conversationId _).getD other []).map Prod.snd = _
      rw [Dict.getD_set, if_neg hother]
    · refine ⟨fun h => ?_, List.mem_cons_of_mem _⟩
      rcases List.mem_cons.mp h with heq | h
      · exact absurd (Prod.mk.inj heq).1 hother
      · exact h

theorem appendMarker_apart (w : TranscriptWriter) (log : Log S) (marker : Marker) :
    Apart w.conversationId log (w.appendMarker outside log marker) := by
  have hconversation : (markerEntry outside.sha256 marker w.conversationId
      (outside.markerTime log.markers) : Entry S).conversationId = w.conversationId := by
    cases marker <;> rfl
  refine ⟨fun other hother => ?_, fun other hother => ?_, Nat.le_succ _⟩
  · exact (store_append_apart log.store _ (by rwa [hconversation])).1
  · exact (store_append_apart log.store _ (by rwa [hconversation])).2

theorem record_apart (w : TranscriptWriter) (log : Log S) (m : M) :
    Apart w.conversationId log (w.record outside log m).2.2 := by
  let entry := messageEntry outside m w.conversationId w.parentUuid [("branch_id", w.branchId)]
    (outside.messageTime log.messages)
  have hstored : Apart w.conversationId log
      { log with store := (log.store.append entry).2, messages := log.messages + 1 } :=
    ⟨fun other hother => (store_append_apart log.store entry hother).1,
      fun other hother => (store_append_apart log.store entry hother).2, Nat.le_refl _⟩
  unfold TranscriptWriter.record
  dsimp only
  split
  · exact hstored
  · exact hstored.trans (appendMarker_apart { w with parentUuid := some entry.uuid } _ _)

theorem append_apart {b b' : Branch M} {messages : List M}
    (h : Branch.append outside b log messages = some (b', log')) :
    Apart b.writer.conversationId log log' := by
  induction messages generalizing b log with
  | nil =>
    obtain rfl := (Prod.mk.inj (Option.some.inj h)).2
    exact .refl
  | cons m messages ih =>
    have hrecord : Apart b.writer.conversationId log (b.writer.record outside log m).2.2 :=
      record_apart b.writer log m
    unfold Branch.append at h
    dsimp only at h
    -- One message recorded in the writer's conversation; the rest by induction.
    cases hparent : (b.writer.record outside log m).2.1.parentUuid with
    | none =>
      rw [hparent] at h
      cases h
    | some uuid =>
      rw [hparent] at h
      have hrest := ih h
      have hconversation : (b.writer.record outside log m).2.1.conversationId
          = b.writer.conversationId := by
        unfold TranscriptWriter.record
        dsimp only
        split <;> rfl
      exact hrecord.trans (hconversation ▸ hrest)

theorem replace_apart {b b' : Branch M} {desired : List M}
    (h : b.replace outside log desired = some (b', log')) :
    Apart b.writer.conversationId log log' := by
  unfold Branch.replace at h
  dsimp only at h
  split at h
  · split at h
    · cases h
    · have hrest := append_apart h
      exact (appendMarker_apart b.writer log _).trans hrest
  · exact append_apart h

end apart

/-! ## Section 2: A log that is well kept -/

theorem Written.mono {conversation : String} {n n' : Nat} {entries : List (Entry S)}
    (h : Written outside conversation n entries) (hle : n ≤ n') :
    Written outside conversation n' entries := by
  induction hle with
  | refl => exact h
  | step _ ih => exact ih.again

/-- A conversation that others leave alone. -/
theorem LogOk.apart {conversation other : String} {log log' : Log S}
    (h : LogOk outside other log) (hapart : Apart conversation log log')
    (hother : other ≠ conversation) : LogOk outside other log' := by
  refine ⟨?_, fun u => ?_⟩
  · rw [hapart.entries other hother]
    exact h.written.mono hapart.markers
  · rw [hapart.seen other hother, hapart.entries other hother]
    exact h.seen u

/-- Every conversation of the log is one that writers wrote, and nothing is buried. -/
structure WellKept (outside : Outside S M) (log : Log S) : Prop where
  ok : ∀ conversation, LogOk outside conversation log
  plain : ∀ conversation, buried (log.entries conversation) = []

/-- The entries of every conversation stay. -/
def Grows (log log' : Log S) : Prop :=
  ∀ conversation, log.entries conversation <+: log'.entries conversation

section kept

variable {log log' : Log S} {b b' : Branch M} {conversation : String}

theorem wellKept_empty : WellKept outside ({} : Log S) :=
  ⟨fun _ => EmptyConversation.logOk ⟨rfl, fun _ => List.not_mem_nil⟩, fun _ => rfl⟩

/-- A branch stays anchored when others write. -/
theorem Anchored.grow (h : Anchored outside b log) (hkept : WellKept outside log')
    (hgrows : Grows log log') : Anchored outside b log' := by
  obtain ⟨chain, hchain, huuids, hcarries⟩ := h.chain
  obtain ⟨more, hmore⟩ := hgrows b.writer.conversationId
  refine ⟨hkept.ok _, hkept.plain _, chain, ?_, huuids, hcarries⟩
  rw [← hmore]
  exact hchain.append

/-- What one branch's write leaves is well kept, and everything stored stays. -/
theorem WellKept.write (h : WellKept outside log) (hanchored : Anchored outside b' log')
    (hgrown : Grown b log b' log') (hapart : Apart b.writer.conversationId log log') :
    WellKept outside log' ∧ Grows log log' := by
  have hok := hanchored.ok
  have hplain := hanchored.plain
  rw [hgrown.conversation] at hok hplain
  refine ⟨⟨fun other => ?_, fun other => ?_⟩, fun other => ?_⟩
  · by_cases hother : other = b.writer.conversationId
    · rw [hother]
      exact hok
    · exact (h.ok other).apart hapart hother
  · by_cases hother : other = b.writer.conversationId
    · rw [hother]
      exact hplain
    · rw [hapart.entries other hother]
      exact h.plain other
  · by_cases hother : other = b.writer.conversationId
    · rw [hother]
      exact hgrown.entries
    · exact (hapart.entries other hother).symm ▸ List.prefix_refl _

/-! ## Section 3: The active branch -/

/-- The identities of the active branch. -/
def activeUuids (log : Log S) (conversation : String) : List String :=
  (activeBranch (log.entries conversation)).map Entry.uuid

theorem WellKept.open_anchored (h : WellKept outside log)
    (hdecode : ∀ m, outside.encode (outside.decode (outside.encode m)) = outside.encode m)
    (conversation branchId : String) :
    Aligned outside (Branch.open_ outside log conversation branchId) log :=
  open_aligned (h.ok conversation) (h.plain conversation) hdecode branchId

/-- A branch at the tip stands at the end of the active branch. -/
theorem Aligned.active_chain (h : Aligned outside b log) :
    Chain (log.entries b.writer.conversationId) b.writer.parentUuid
      (activeBranch (log.entries b.writer.conversationId)) := by
  obtain ⟨chain, hchain, _, _⟩ := h.chain
  rw [h.atTip.activeBranch_eq h.plain hchain]
  exact hchain

theorem Aligned.activeUuids_eq (h : Aligned outside b log) :
    activeUuids log b.writer.conversationId = b.uuids := h.active.1.symm

/-- What was active earlier and lies on a branch by its identities is what the branch begins
    with. -/
theorem Anchored.begins (h : Anchored outside b log)
    (hdecode : ∀ m, outside.encode (outside.decode (outside.encode m)) = outside.encode m)
    {earlier : Log S} (hearlier : WellKept outside earlier) (hgrows : Grows earlier log)
    (hprefix_ : activeUuids earlier b.writer.conversationId <+: b.uuids) :
    let messages := messagesOf outside (earlier.entries b.writer.conversationId)
    messages.length ≤ b.messages.length ∧
      messages.length = (activeUuids earlier b.writer.conversationId).length ∧
      SameHistory outside messages (b.messages.take messages.length) := by
  intro messages
  obtain ⟨chain, hchain, huuids, hcarries⟩ := h.chain
  let active := activeBranch (earlier.entries b.writer.conversationId)
  have hopened := hearlier.open_anchored hdecode b.writer.conversationId ""
  have hactive : Chain (earlier.entries b.writer.conversationId) _ active := hopened.active_chain
  -- the same identities are those of the same entries
  have htake : chain.take active.length = active := by
    refine List.eq_of_map_eq_of_nodup h.ok.written.nodup
      (fun e he => hchain.mem (List.mem_of_mem_take he))
      (fun e he => (hgrows _).subset (hactive.mem he)) ?_
    rw [List.map_take, ← huuids]
    have hlength : active.length = (active.map Entry.uuid).length := (List.length_map _).symm
    rw [hlength]
    exact (List.prefix_iff_eq_take.mp hprefix_).symm
  have hheld := List.forall₂_take active.length hcarries
  rw [htake] at hheld
  have hsame : SameHistory outside messages (b.messages.take active.length) :=
    decode_carried hdecode hheld
  have hlength : messages.length = active.length := hsame.length_eq.trans hheld.length_eq.symm
  have hle : active.length ≤ b.messages.length := by
    rw [← hcarries.length_eq, ← htake, List.length_take]
    exact Nat.min_le_right _ _
  rw [hlength]
  refine ⟨hle, ?_, hsame⟩
  exact (List.length_map _).symm

/-- A branch that lies where the active branch does holds what is read. -/
theorem Anchored.reads (h : Anchored outside b log)
    (hdecode : ∀ m, outside.encode (outside.decode (outside.encode m)) = outside.encode m)
    (hkept : WellKept outside log) (hactive : activeUuids log b.writer.conversationId = b.uuids) :
    SameHistory outside (messagesOf outside (log.entries b.writer.conversationId)) b.messages := by
  obtain ⟨_, hlength, hsame⟩ := h.begins hdecode hkept (fun _ => List.prefix_refl _)
    (hactive ▸ List.prefix_refl _)
  rwa [hlength, hactive, h.length_eq, List.take_length] at hsame

end kept

end Semora
