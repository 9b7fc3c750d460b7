import Semora.Transcript.Written

/-! # Branches of a Transcript

    `semora.transcript.Branch`: what an attempt holds in memory of the active
    branch, the messages and the identities of their entries, and `replace`,
    which moves the branch to another history: back to the common prefix, then
    on, message by message.

    A message that was recorded at the same place before is not appended
    again: its entry, of a branch long left, is taken up. So the chain that
    the branch holds may go through entries of any age. What carries the
    proofs is `Aligned`: the branch's writer stands at the tip, and entry by
    entry the chain of that tip holds the branch's messages. -/

namespace Semora

variable {S M : Type} [PythonScalar S]

/-! ## Section 1: The branch -/

/-- One runtime attempt's view of a conversation branch. `Branch.open` also writes the run's
    record, which is apart from the entries. -/
structure Branch (M : Type) where
  writer : TranscriptWriter
  messages : List M
  uuids : List String

namespace Branch

variable (outside : Outside S M)

/-- Restore a run's active branch and continue writing from its tip. -/
def open_ (log : Log S) (conversationId branchId : String) : Branch M :=
  let entries := log.entries conversationId
  let branch := activeBranch entries
  let messageEntries := branch.filter fun e => e.body?.isSome
  { writer :=
      { conversationId := conversationId
        branchId := branchId
        parentUuid := branch.getLast?.map Entry.uuid }
    messages := messagesOf outside entries
    uuids := messageEntries.map Entry.uuid }

/-- `[stripped(encode_message(m)) for m in messages]`. -/
def bodies (messages : List M) : List (JsonTree S) :=
  messages.map fun m => stripped (outside.encode m)

/-- How many bodies two lists have in common at their beginning. -/
def common : List (JsonTree S) → List (JsonTree S) → Nat
  | body :: current, body' :: wanted =>
    if JsonTree.equal PythonScalar.value body body' then common current wanted + 1 else 0
  | _, _ => 0

/-- Append exact messages and retain their resulting branch coordinates. `none` is the failed
    assertion. -/
def append (b : Branch M) (log : Log S) : List M → Option (Branch M × Log S)
  | [] => some (b, log)
  | message :: messages =>
    let recorded := b.writer.record outside log message
    match recorded.2.1.parentUuid with
    | none => none
    | some uuid =>
      append
        { writer := recorded.2.1
          messages := b.messages ++ [message]
          uuids := b.uuids ++ [uuid] } recorded.2.2 messages

/-- Move to the common prefix and append the desired model-visible history. `none` is an
    exception: an identity that is missing, or the assertion of `append`. -/
def replace (b : Branch M) (log : Log S) (desired : List M) : Option (Branch M × Log S) :=
  let current := bodies outside b.messages
  let wanted := bodies outside desired
  let shared := common current wanted
  if shared < current.length then
    let leafUuid := if shared = 0 then some none else b.uuids[shared - 1]?.map some
    match leafUuid with
    | none => none
    | some leafUuid =>
      let rewound := b.writer.rewind outside log leafUuid
      append outside
        { writer := rewound.1
          messages := b.messages.take shared
          uuids := b.uuids.take shared } rewound.2 (desired.drop shared)
  else append outside b log (desired.drop shared)

/-- One history after another. -/
def replaces (b : Branch M) (log : Log S) : List (List M) → Option (Branch M × Log S)
  | [] => some (b, log)
  | desired :: histories =>
    match b.replace outside log desired with
    | none => none
    | some (b', log') => replaces b' log' histories

variable {outside} in
/-- Appending keeps to the run and the conversation. -/
theorem append_writer {b b' : Branch M} {log log' : Log S} {messages : List M}
    (h : append outside b log messages = some (b', log')) :
    b'.writer.branchId = b.writer.branchId ∧
      b'.writer.conversationId = b.writer.conversationId := by
  induction messages generalizing b log with
  | nil =>
    obtain rfl := (Prod.mk.inj (Option.some.inj h)).1
    exact ⟨rfl, rfl⟩
  | cons m messages ih =>
    obtain ⟨hw, hc⟩ : (b.writer.record outside log m).2.1.branchId = b.writer.branchId ∧
        (b.writer.record outside log m).2.1.conversationId = b.writer.conversationId := by
      unfold TranscriptWriter.record
      dsimp only
      split <;> exact ⟨rfl, rfl⟩
    unfold append at h
    dsimp only at h
    -- A message recorded makes the tip; without one the append has failed.
    cases hparent : (b.writer.record outside log m).2.1.parentUuid with
    | none =>
      rw [hparent] at h
      cases h
    | some uuid =>
      rw [hparent] at h
      obtain ⟨hw', hc'⟩ := ih h
      exact ⟨hw'.trans hw, hc'.trans hc⟩

variable {outside} in
/-- So does replacing. -/
theorem replace_writer {b b' : Branch M} {log log' : Log S} {desired : List M}
    (h : b.replace outside log desired = some (b', log')) :
    b'.writer.branchId = b.writer.branchId ∧
      b'.writer.conversationId = b.writer.conversationId := by
  unfold replace at h
  dsimp only at h
  split at h
  · split at h
    · cases h
    · obtain ⟨hw, hc⟩ := append_writer h
      exact ⟨hw, hc⟩
  · exact append_writer h

end Branch

/-! ## Section 2: Equal histories -/

/-- Two messages have equal bodies, up to stripped fields. -/
def SameMessage (outside : Outside S M) (m m' : M) : Prop :=
  JsonTree.equal PythonScalar.value (stripped (outside.encode m))
    (stripped (outside.encode m')) = true

/-- Two histories are equal, message by message. -/
def SameHistory (outside : Outside S M) (history history' : List M) : Prop :=
  List.Forall₂ (SameMessage outside) history history'

section histories

variable {outside : Outside S M} {m m' m'' : M} {history history' history'' : List M}

theorem sameMessage_iff : SameMessage outside m m' ↔ JsonTree.Same PythonScalar.value
    (stripped (outside.encode m)) (stripped (outside.encode m')) :=
  JsonTree.equal_iff_same (stripped_wf (outside.wf m)) (stripped_wf (outside.wf m'))

theorem SameMessage.refl (m : M) : SameMessage outside m m :=
  sameMessage_iff.mpr (JsonTree.Same.refl _)

theorem SameMessage.symm (h : SameMessage outside m m') : SameMessage outside m' m :=
  sameMessage_iff.mpr (sameMessage_iff.mp h).symm

theorem SameMessage.trans (h : SameMessage outside m m') (h' : SameMessage outside m' m'') :
    SameMessage outside m m'' :=
  sameMessage_iff.mpr ((sameMessage_iff.mp h).trans (sameMessage_iff.mp h'))

theorem SameHistory.refl (history : List M) : SameHistory outside history history :=
  List.forall₂_same.mpr fun m _ => SameMessage.refl m

theorem SameHistory.symm (h : SameHistory outside history history') :
    SameHistory outside history' history :=
  (List.Forall₂.imp (fun _ _ hsame => SameMessage.symm hsame) h).flip

theorem SameHistory.trans (h : SameHistory outside history history')
    (h' : SameHistory outside history' history'') : SameHistory outside history history'' := by
  induction h generalizing history'' with
  | nil => exact h'
  | cons hsame h ih =>
    cases h' with
    | cons hsame' h' => exact .cons (hsame.trans hsame') (ih h')

theorem SameHistory.take (h : SameHistory outside history history') (k : Nat) :
    SameHistory outside (history.take k) (history'.take k) := List.forall₂_take k h

theorem common_cons (h : SameMessage outside m m') :
    Branch.common (Branch.bodies outside (m :: history)) (Branch.bodies outside (m' :: history'))
      = Branch.common (Branch.bodies outside history) (Branch.bodies outside history') + 1 :=
  if_pos h

theorem common_cons_ne (h : ¬ SameMessage outside m m') :
    Branch.common (Branch.bodies outside (m :: history)) (Branch.bodies outside (m' :: history'))
      = 0 :=
  if_neg h

/-- Up to where two histories are compared, they are equal, and neither is shorter. -/
theorem common_spec (outside : Outside S M) (history history' : List M) :
    let n := Branch.common (Branch.bodies outside history) (Branch.bodies outside history')
    n ≤ history.length ∧ n ≤ history'.length ∧
      SameHistory outside (history.take n) (history'.take n) := by
  induction history generalizing history' with
  | nil => exact ⟨Nat.le_refl _, Nat.zero_le _, .nil⟩
  | cons m history ih =>
    cases history' with
    | nil => exact ⟨Nat.zero_le _, Nat.le_refl _, .nil⟩
    | cons m' history' =>
      obtain ⟨hle, hle', hsame⟩ := ih history'
      by_cases hequal : SameMessage outside m m'
      · rw [common_cons hequal]
        exact ⟨Nat.succ_le_succ hle, Nat.succ_le_succ hle', .cons hequal hsame⟩
      · rw [common_cons_ne hequal]
        exact ⟨Nat.zero_le _, Nat.zero_le _, .nil⟩

/-- The comparison goes as far as the histories are equal. -/
theorem le_common {k : Nat} (hsame : SameHistory outside (history.take k) (history'.take k))
    (hk : k ≤ history.length) :
    k ≤ Branch.common (Branch.bodies outside history) (Branch.bodies outside history') := by
  induction k generalizing history history' with
  | zero => exact Nat.zero_le _
  | succ k ih =>
    cases history with
    | nil => cases hk
    | cons m history =>
      cases history' with
      | nil => cases hsame
      | cons m' history' =>
        cases hsame with
        | cons hequal hrest =>
          rw [common_cons hequal]
          exact Nat.succ_le_succ (ih hrest (Nat.le_of_succ_le_succ hk))

end histories

/-! ## Section 3: The chain and what is in it -/

namespace Chain

variable {entries : List (Entry S)} {tip : Option String} {chain : List (Entry S)}

omit [PythonScalar S] in
/-- A chain ends at its tip. -/
theorem tip_eq (h : Chain entries tip chain) : tip = chain.getLast?.map Entry.uuid := by
  cases h with
  | root => rfl
  | entry h he hparent => rw [List.getLast?_concat, Option.map_some]

omit [PythonScalar S] in
theorem chained (h : Chain entries tip chain) {e : Entry S} (he : e ∈ chain) :
    e.chained = true := by
  induction h with
  | root => cases he
  | entry h hmem hparent ih =>
    rcases List.mem_append.mp he with he | he
    · exact ih he
    · rw [List.mem_singleton.mp he]
      unfold Entry.chained
      rw [hparent]
      rfl

omit [PythonScalar S] in
theorem position (h : Chain entries tip chain) : Position entries tip := by
  intro u hu
  rw [h.tip_eq] at hu
  obtain ⟨e, he, rfl⟩ := Option.map_eq_some_iff.mp hu
  have hmem := List.mem_of_getLast? he
  exact ⟨e, h.mem hmem, h.chained hmem, rfl⟩

omit [PythonScalar S] in
/-- The beginning of a chain is the chain to where it ends. -/
theorem take (h : Chain entries tip chain) (k : Nat) :
    Chain entries ((chain.take k).getLast?.map Entry.uuid) (chain.take k) := by
  induction h with
  | root =>
    rw [List.take_nil]
    exact .root
  | @entry parent before e h he hparent ih =>
    rcases Nat.lt_or_ge before.length k with hlt | hle
    · have hwhole : (before ++ [e]).take k = before ++ [e] :=
        List.take_of_length_le (by rw [List.length_append, List.length_singleton]; exact hlt)
      rw [hwhole, List.getLast?_concat]
      exact h.entry he hparent
    · rw [List.take_append_of_le_length hle]
      exact ih

end Chain

section holding

variable {outside : Outside S M} {conversation : String} {n : Nat} {entries : List (Entry S)}

/-- The tip that is inferred is the root or an entry of the chain. -/
theorem Written.activeTip_position (h : Written outside conversation n entries) :
    Position entries (activeTip entries) := by
  induction h with
  | nil n => exact position_none _
  | @message n entries h parent hparent m metadata time hnew ih =>
    have hkind : (messageEntry outside m conversation parent metadata time).type ≠ "leaf" := by
      show bodyKind (outside.encode m) ≠ "leaf"
      rcases bodyKind_encode outside m with hkind | hkind <;> rw [hkind] <;> decide
    rw [activeTip_concat, if_neg hkind]
    intro u hu
    exact ⟨_, List.mem_append_right _ List.mem_cons_self, rfl, Option.some.inj hu⟩
  | @marker n entries h marker hleaf hnew ih =>
    rw [activeTip_concat]
    cases marker with
    | leaf leafUuid => exact (hleaf leafUuid rfl).append
    | tombstone deletedUuid => exact ih.append
  | again h ih => exact ih

omit [PythonScalar S] in
/-- A body is a dictionary. -/
theorem Outside.encode_obj (outside : Outside S M) (m : M) :
    ∃ fields, outside.encode m = .obj fields := by
  have hkind := outside.kind m
  cases hbody : outside.encode m with
  | obj fields => exact ⟨fields, rfl⟩
  | _ => rw [hbody] at hkind; rcases hkind with h | h <;> cases h

theorem body?_messageEntry (outside : Outside S M) (m : M) (conversationId : String)
    (parentUuid : Option String) (metadata : List (String × String)) (timestamp : String) :
    (messageEntry outside m conversationId parentUuid metadata timestamp).body?
      = some (outside.encode m) := by
  obtain ⟨fields, hfields⟩ := outside.encode_obj m
  unfold Entry.body? messageEntry
  dsimp only
  rw [hfields]

/-- An entry holds a message. -/
def Carries (outside : Outside S M) (e : Entry S) (m : M) : Prop :=
  ∃ m', e.body? = some (outside.encode m') ∧ SameMessage outside m' m

/-- What is read of a chain is what it holds, if decoding loses nothing. -/
theorem decode_carried (hdecode : ∀ m, outside.encode (outside.decode (outside.encode m))
    = outside.encode m) {chain : List (Entry S)} {history : List M}
    (h : List.Forall₂ (Carries outside) chain history) :
    SameHistory outside ((chain.filterMap Entry.body?).map outside.decode) history := by
  induction h with
  | nil => exact .nil
  | cons hcarries h ih =>
    obtain ⟨m', hbody, hsame⟩ := hcarries
    rw [List.filterMap_cons_some hbody, List.map_cons]
    refine .cons ?_ ih
    unfold SameMessage at hsame ⊢
    rwa [hdecode]

end holding

/-! ## Section 4: Alignment -/

/-- What a branch holds is in its log: entry by entry, the chain to where its writer stands holds
    the branch's messages. Others may have moved the tip. -/
structure Anchored (outside : Outside S M) (b : Branch M) (log : Log S) : Prop where
  ok : LogOk outside b.writer.conversationId log
  /-- Nothing is buried. -/
  plain : buried (log.entries b.writer.conversationId) = []
  chain : ∃ chain, Chain (log.entries b.writer.conversationId) b.writer.parentUuid chain ∧
    b.uuids = chain.map Entry.uuid ∧ List.Forall₂ (Carries outside) chain b.messages

/-- What a branch holds is what its log holds. -/
structure Aligned (outside : Outside S M) (b : Branch M) (log : Log S) : Prop where
  atTip : AtTip outside b.writer log
  /-- Nothing is buried. -/
  plain : buried (log.entries b.writer.conversationId) = []
  chain : ∃ chain, Chain (log.entries b.writer.conversationId) b.writer.parentUuid chain ∧
    b.uuids = chain.map Entry.uuid ∧ List.Forall₂ (Carries outside) chain b.messages

section aligned

variable {outside : Outside S M} {b : Branch M} {log : Log S} {desired : List M}

theorem Aligned.anchored (h : Aligned outside b log) : Anchored outside b log :=
  ⟨h.atTip.ok, h.plain, h.chain⟩

theorem Anchored.position (h : Anchored outside b log) :
    Position (log.entries b.writer.conversationId) b.writer.parentUuid := by
  obtain ⟨_, hchain, _, _⟩ := h.chain
  exact hchain.position

theorem Anchored.length_eq (h : Anchored outside b log) : b.uuids.length = b.messages.length := by
  obtain ⟨chain, _, huuids, hcarries⟩ := h.chain
  rw [huuids, List.length_map, hcarries.length_eq]

/-- Where nothing is buried the active branch is the chain to the tip. -/
theorem AtTip.activeBranch_eq {w : TranscriptWriter} (h : AtTip outside w log)
    (hplain : buried (log.entries w.conversationId) = []) {chain : List (Entry S)}
    (hchain : Chain (log.entries w.conversationId) w.parentUuid chain) :
    activeBranch (log.entries w.conversationId) = chain := by
  obtain ⟨found, _, hunique, _, hactive⟩ := h.ok.written.activeBranch_eq h.position h.tip
  rw [hactive, hplain, hunique chain hchain]
  exact List.filter_eq_self.mpr fun _ _ => by simp

theorem Aligned.active (h : Aligned outside b log) :
    b.uuids = (activeBranch (log.entries b.writer.conversationId)).map Entry.uuid ∧
      List.Forall₂ (Carries outside) (activeBranch (log.entries b.writer.conversationId))
        b.messages := by
  obtain ⟨chain, hchain, huuids, hcarries⟩ := h.chain
  rw [h.atTip.activeBranch_eq h.plain hchain]
  exact ⟨huuids, hcarries⟩

/-- What is read of the log is what the branch holds. -/
theorem Aligned.read_back (h : Aligned outside b log)
    (hdecode : ∀ m, outside.encode (outside.decode (outside.encode m)) = outside.encode m) :
    SameHistory outside (messagesOf outside (log.entries b.writer.conversationId)) b.messages :=
  decode_carried hdecode h.active.2

omit [PythonScalar S] in
theorem buried_concat {entries : List (Entry S)} {entry : Entry S}
    (hplain : buried entries = []) (htype : entry.type ≠ "tombstone") :
    buried (entries ++ [entry]) = [] := by
  unfold buried at hplain ⊢
  rw [List.filterMap_append, hplain, List.nil_append]
  exact List.filterMap_cons_none (if_neg htype)

/-- **Open**: a branch that is opened is aligned with the log. -/
theorem open_aligned {conversation : String} (hok : LogOk outside conversation log)
    (hplain : buried (log.entries conversation) = [])
    (hdecode : ∀ m, outside.encode (outside.decode (outside.encode m)) = outside.encode m)
    (branchId : String) :
    Aligned outside (Branch.open_ outside log conversation branchId) log := by
  obtain ⟨chain, hchain, _, _, hactive⟩ :=
    hok.written.activeBranch_eq hok.written.activeTip_position rfl
  rw [hplain] at hactive
  have hwhole : (chain.filter fun e => e.uuid ∉ ([] : List String)) = chain :=
    List.filter_eq_self.mpr fun _ _ => by simp
  rw [hwhole] at hactive
  -- every entry of a chain is a message
  have hbody : ∀ e ∈ chain, ∃ m, e.body? = some (outside.encode m) := by
    intro e he
    have hchained := hchain.chained he
    rcases hok.written.cases (hchain.mem he) with ⟨m, parent, metadata, time, rfl, _⟩ |
      ⟨marker, k, _, rfl⟩
    · exact ⟨m, body?_messageEntry _ _ _ _ _ _⟩
    · cases marker <;> cases hchained
  have hcarries : ∀ chain : List (Entry S), (∀ e ∈ chain, ∃ m, e.body? = some (outside.encode m)) →
      List.Forall₂ (Carries outside) chain
        ((chain.filterMap Entry.body?).map outside.decode) := by
    intro chain hbody
    induction chain with
    | nil => exact .nil
    | cons e chain ih =>
      obtain ⟨m, hm⟩ := hbody e List.mem_cons_self
      rw [List.filterMap_cons_some hm, List.map_cons]
      refine .cons ⟨m, hm, ?_⟩ (ih fun other hother => hbody other (List.mem_cons_of_mem _ hother))
      unfold SameMessage
      rw [hdecode]
      exact SameMessage.refl m
  have htip : activeTip (log.entries conversation)
      = (activeBranch (log.entries conversation)).getLast?.map Entry.uuid := by
    rw [hactive]
    exact hchain.tip_eq
  refine ⟨⟨hok, ?_, htip⟩, hplain, chain, ?_, ?_, ?_⟩
  · show Position (log.entries conversation)
      ((activeBranch (log.entries conversation)).getLast?.map Entry.uuid)
    rw [← htip]
    exact hok.written.activeTip_position
  · show Chain (log.entries conversation)
      ((activeBranch (log.entries conversation)).getLast?.map Entry.uuid) chain
    rw [← htip]
    exact hchain
  · show ((activeBranch (log.entries conversation)).filter fun e => e.body?.isSome).map Entry.uuid
      = chain.map Entry.uuid
    rw [hactive, List.filter_eq_self.mpr]
    intro e he
    obtain ⟨m, hm⟩ := hbody e he
    rw [hm]
    rfl
  · show List.Forall₂ (Carries outside) chain (messagesOf outside (log.entries conversation))
    unfold messagesOf
    rw [hactive]
    exact hcarries chain hbody

/-- What an operation on a branch leaves as it was. -/
structure Grown (b : Branch M) (log : Log S) (b' : Branch M) (log' : Log S) : Prop where
  conversation : b'.writer.conversationId = b.writer.conversationId
  entries : log.entries b.writer.conversationId <+: log'.entries b.writer.conversationId

omit [PythonScalar S] in
theorem Grown.refl (b : Branch M) (log : Log S) : Grown b log b log := ⟨rfl, List.prefix_refl _⟩

omit [PythonScalar S] in
theorem Grown.trans {b' b'' : Branch M} {log' log'' : Log S} (h : Grown b log b' log')
    (h' : Grown b' log' b'' log'') : Grown b log b'' log'' := by
  refine ⟨h'.conversation.trans h.conversation, h.entries.trans ?_⟩
  rw [← h.conversation]
  exact h'.entries

/-- **Record** on a branch: the chain grows by an entry that holds the message, a new one or one
    that was there. -/
theorem record_aligned (hfree : CollisionFree outside)
    (htimes : Function.Injective outside.markerTime) (h : Anchored outside b log) (m : M) :
    let u := entryId outside.sha256 b.writer.parentUuid (outside.encode m)
    let r := b.writer.record outside log m
    let b' : Branch M :=
      { writer := r.2.1, messages := b.messages ++ [m], uuids := b.uuids ++ [u] }
    r.2.1.parentUuid = some u ∧ Aligned outside b' r.2.2 ∧ Grown b log b' r.2.2 := by
  intro u r b'
  obtain ⟨chain, hchain, huuids, hcarries⟩ := h.chain
  obtain ⟨htip, hw, hcases⟩ :=
    record_atTip hfree htimes h.ok h.position m
  have hparent : r.2.1.parentUuid = some u := congrArg TranscriptWriter.parentUuid hw
  have hsame : r.2.1.conversationId = b.writer.conversationId :=
    (congrArg TranscriptWriter.conversationId hw).trans rfl
  have hwritten := h.ok.written
  -- the entry that the chain goes on with
  have hnext : buried (r.2.2.entries b.writer.conversationId) = [] ∧
      log.entries b.writer.conversationId <+: r.2.2.entries b.writer.conversationId ∧
      ∃ e ∈ r.2.2.entries b.writer.conversationId, e.uuid = u ∧
        e.parentUuid = some b.writer.parentUuid ∧ Carries outside e m := by
    rcases hcases with ⟨_, _, metadata, time, hentries⟩ | ⟨_, hold, entry, hleaf, _, hentries⟩
    · rw [hentries]
      refine ⟨buried_concat h.plain ?_, List.prefix_append _ _, _,
        List.mem_append_right _ List.mem_cons_self, rfl, rfl, m, body?_messageEntry _ _ _ _ _ _,
        SameMessage.refl m⟩
      show bodyKind (outside.encode m) ≠ "tombstone"
      rcases bodyKind_encode outside m with hkind | hkind <;> rw [hkind] <;> decide
    · rw [hentries]
      obtain ⟨e, he, huuid⟩ := List.mem_map.mp hold
      obtain ⟨m', parent', metadata, time, rfl, hposition, htext, hcontent⟩ :=
        hwritten.of_message_uuid hfree he huuid
      have hat := hwritten.position_inj hfree hposition h.position htext
      refine ⟨buried_concat h.plain (by rw [hleaf]; decide), List.prefix_append _ _, _,
        List.mem_append_left _ he, huuid, congrArg some hat, m', body?_messageEntry _ _ _ _ _ _, ?_⟩
      exact sameMessage_iff.mpr (hcontent.coarser PythonScalar.value)
  obtain ⟨hplain, hgrown, e, he, huuid, hlink, hcarry⟩ := hnext
  obtain ⟨more, hmore⟩ := hgrown
  refine ⟨hparent, ⟨htip, ?_, chain ++ [e], ?_, ?_, ?_⟩, hsame, more, hmore⟩
  · show buried (r.2.2.entries r.2.1.conversationId) = []
    rw [hsame]
    exact hplain
  · show Chain (r.2.2.entries r.2.1.conversationId) r.2.1.parentUuid (chain ++ [e])
    rw [hsame, hparent, ← huuid]
    refine Chain.entry ?_ he hlink
    rw [← hmore]
    exact hchain.append
  · show b.uuids ++ [u] = (chain ++ [e]).map Entry.uuid
    rw [List.map_append, List.map_singleton, huuid, huuids]
  · exact List.rel_append hcarries (.cons hcarry .nil)

/-- **Rewind** on a branch, to the first `k` of its entries. -/
theorem rewind_aligned (hfree : CollisionFree outside)
    (htimes : Function.Injective outside.markerTime) (h : Anchored outside b log) (k : Nat) :
    let leafUuid := (b.uuids.take k).getLast?
    let r := b.writer.rewind outside log leafUuid
    let b' : Branch M :=
      { writer := r.1, messages := b.messages.take k, uuids := b.uuids.take k }
    Aligned outside b' r.2 ∧ Grown b log b' r.2 := by
  intro leafUuid r b'
  obtain ⟨chain, hchain, huuids, hcarries⟩ := h.chain
  have hfirst := hchain.take k
  -- The leaf is the last of the first `k` entries, so the chain up to it is what is left.
  have hleaf : leafUuid = (chain.take k).getLast?.map Entry.uuid := by
    show (b.uuids.take k).getLast? = _
    rw [huuids, ← List.map_take, List.getLast?_map]
  rw [← hleaf] at hfirst
  obtain ⟨htip, entry, htype, _, hentries⟩ :=
    rewind_atTip hfree htimes h.ok hfirst.position
  refine ⟨⟨htip, ?_, chain.take k, ?_, ?_, ?_⟩, rfl, [entry], hentries.symm⟩
  · show buried (r.2.entries b.writer.conversationId) = []
    rw [hentries]
    exact buried_concat h.plain (by rw [htype]; decide)
  · show Chain (r.2.entries b.writer.conversationId) leafUuid (chain.take k)
    rw [hentries]
    exact hfirst.append
  · show b.uuids.take k = _
    rw [huuids, List.map_take]
  · exact List.forall₂_take k hcarries

/-- **Append** on a branch never fails: it does nothing, or the branch is at the tip. -/
theorem append_anchored (hfree : CollisionFree outside)
    (htimes : Function.Injective outside.markerTime) (h : Anchored outside b log)
    (messages : List M) :
    ∃ b' log', Branch.append outside b log messages = some (b', log') ∧
      Anchored outside b' log' ∧ Grown b log b' log' ∧
      b'.messages = b.messages ++ messages ∧ b.uuids <+: b'.uuids ∧
      ((b' = b ∧ log' = log) ∨ Aligned outside b' log') := by
  -- Induction on the messages: one recorded, the rest from where it left the branch.
  induction messages generalizing b log with
  | nil =>
    exact ⟨b, log, rfl, h, .refl b log, (List.append_nil _).symm, List.prefix_refl _,
      Or.inl ⟨rfl, rfl⟩⟩
  | cons m messages ih =>
    obtain ⟨hparent, haligned, hgrown⟩ := record_aligned hfree htimes h m
    obtain ⟨b', log', hrest, hanchored', hgrown', hmessages, huuids, hdone⟩ := ih haligned.anchored
    refine ⟨b', log', ?_, hanchored', hgrown.trans hgrown', ?_, ?_, Or.inr ?_⟩
    · unfold Branch.append
      dsimp only
      rw [hparent]
      exact hrest
    · rw [hmessages, List.append_assoc, List.singleton_append]
    · exact (List.prefix_append _ _).trans huuids
    · rcases hdone with ⟨rfl, rfl⟩ | haligned'
      · exact haligned
      · exact haligned'

/-- The first `k` messages of two histories in a row, when the first has as many. -/
theorem splice_same {history desired : List M} {k : Nat}
    (hsame : SameHistory outside (history.take k) (desired.take k)) :
    SameHistory outside (history.take k ++ desired.drop k) desired := by
  have happend : SameHistory outside (history.take k ++ desired.drop k)
      (desired.take k ++ desired.drop k) := List.rel_append hsame (SameHistory.refl _)
  rwa [List.take_append_drop] at happend

/-- **Replace** on a branch never fails, and the branch holds the history it was given. It does
    nothing, or the branch is at the tip. -/
theorem replace_anchored (hfree : CollisionFree outside)
    (htimes : Function.Injective outside.markerTime) (h : Anchored outside b log)
    (desired : List M) :
    ∃ b' log', b.replace outside log desired = some (b', log') ∧
      Anchored outside b' log' ∧ Grown b log b' log' ∧
      SameHistory outside b'.messages desired ∧
      (∀ k ≤ b.messages.length, SameHistory outside (b.messages.take k) (desired.take k) →
        b'.uuids.take k = b.uuids.take k) ∧
      ((b' = b ∧ log' = log) ∨ Aligned outside b' log') := by
  have hlength := h.length_eq
  obtain ⟨hle, _, hsame⟩ := common_spec outside b.messages desired
  let shared := Branch.common (Branch.bodies outside b.messages) (Branch.bodies outside desired)
  -- what is equal lies before the end of the comparison, and stays where it is
  have hkeeps : ∀ (uuids : List String), b.uuids.take shared <+: uuids →
      ∀ k ≤ b.messages.length, SameHistory outside (b.messages.take k) (desired.take k) →
        uuids.take k = b.uuids.take k := by
    intro uuids hprefix_ k hk hequal
    have hshared : k ≤ shared := le_common hequal hk
    obtain ⟨more, rfl⟩ := hprefix_
    have hlong : k ≤ (b.uuids.take shared).length := by
      rw [List.length_take, hlength]
      exact Nat.le_min.mpr ⟨hshared, hk⟩
    rw [List.take_append_of_le_length hlong, List.take_take, Nat.min_eq_left hshared]
  by_cases hrewind : shared < (Branch.bodies outside b.messages).length
  · have hshort : shared < b.uuids.length := by
      rw [Branch.bodies, List.length_map] at hrewind
      omega
    -- the identity that the comparison ends at is there
    have hleaf : (if shared = 0 then some none else b.uuids[shared - 1]?.map some)
        = some (b.uuids.take shared).getLast? := by
      rw [List.getLast?_take]
      by_cases hzero : shared = 0
      · rw [if_pos hzero, if_pos hzero]
      · rw [if_neg hzero, if_neg hzero, List.getElem?_eq_getElem (by omega)]
        rfl
    obtain ⟨haligned, hgrown⟩ := rewind_aligned hfree htimes h shared
    obtain ⟨b', log', hrest, hanchored', hgrown', hmessages, huuids, hdone⟩ :=
      append_anchored hfree htimes haligned.anchored (desired.drop shared)
    refine ⟨b', log', ?_, hanchored', hgrown.trans hgrown', ?_, hkeeps _ huuids, Or.inr ?_⟩
    · unfold Branch.replace
      dsimp only
      rw [if_pos hrewind, hleaf]
      exact hrest
    · rw [hmessages]
      exact splice_same hsame
    · rcases hdone with ⟨rfl, rfl⟩ | haligned'
      · exact haligned
      · exact haligned'
  · obtain ⟨b', log', hrest, hanchored', hgrown', hmessages, huuids, hdone⟩ :=
      append_anchored hfree htimes h (desired.drop shared)
    have hwhole : b.messages.length ≤ shared := by
      rw [Branch.bodies, List.length_map] at hrewind
      exact Nat.le_of_not_lt hrewind
    refine ⟨b', log', ?_, hanchored', hgrown', ?_,
      hkeeps _ ((List.take_prefix _ _).trans huuids), hdone⟩
    · unfold Branch.replace
      dsimp only
      rw [if_neg hrewind]
      exact hrest
    · rw [hmessages]
      have hfirst : b.messages.take shared = b.messages := List.take_of_length_le hwhole
      rw [← hfirst]
      exact splice_same hsame

/-- On a branch at the tip the branch stays there. -/
theorem replace_aligned (hfree : CollisionFree outside)
    (htimes : Function.Injective outside.markerTime) (h : Aligned outside b log)
    (desired : List M) :
    ∃ b' log', b.replace outside log desired = some (b', log') ∧
      Aligned outside b' log' ∧ Grown b log b' log' ∧
      SameHistory outside b'.messages desired ∧
      ∀ k ≤ b.messages.length, SameHistory outside (b.messages.take k) (desired.take k) →
        b'.uuids.take k = b.uuids.take k := by
  obtain ⟨b', log', hreplace, _, hgrown, hsame, hkeeps, hdone⟩ :=
    replace_anchored hfree htimes h.anchored desired
  refine ⟨b', log', hreplace, ?_, hgrown, hsame, hkeeps⟩
  rcases hdone with ⟨rfl, rfl⟩ | haligned
  · exact h
  · exact haligned

/-- A branch that holds a history has nothing to do to hold it. -/
theorem replace_held (h : SameHistory outside b.messages desired) :
    b.replace outside log desired = some (b, log) := by
  have hall : b.messages.length
      ≤ Branch.common (Branch.bodies outside b.messages) (Branch.bodies outside desired) := by
    refine le_common ?_ (Nat.le_refl _)
    rw [List.take_length, h.length_eq, List.take_length]
    exact h
  obtain ⟨hle, _, _⟩ := common_spec outside b.messages desired
  have hshared := Nat.le_antisymm hle hall
  unfold Branch.replace
  dsimp only
  have hstay : ¬ Branch.common (Branch.bodies outside b.messages) (Branch.bodies outside desired)
      < (Branch.bodies outside b.messages).length := by
    rw [hshared, Branch.bodies, List.length_map]
    exact Nat.lt_irrefl _
  rw [if_neg hstay, hshared, h.length_eq, List.drop_length]
  rfl

/-- Histories one after another. -/
theorem replaces_aligned (hfree : CollisionFree outside)
    (htimes : Function.Injective outside.markerTime) (h : Aligned outside b log)
    (histories : List (List M)) :
    ∃ b' log', b.replaces outside log histories = some (b', log') ∧
      Aligned outside b' log' ∧ Grown b log b' log' := by
  induction histories generalizing b log with
  | nil => exact ⟨b, log, rfl, h, .refl b log⟩
  | cons desired histories ih =>
    obtain ⟨b', log', hreplace, haligned, hgrown, _⟩ := replace_aligned hfree htimes h desired
    obtain ⟨b'', log'', hrest, haligned', hgrown'⟩ := ih haligned
    refine ⟨b'', log'', ?_, haligned', hgrown.trans hgrown'⟩
    unfold Branch.replaces
    rw [hreplace]
    exact hrest

end aligned

/-! ## Section 5: Opening a log and replacing its history -/

/-- A log of a conversation: what writers left that stood, and rewound to, the root or entries of
    its chains. -/
inductive WrittenLog (outside : Outside S M) (conversation : String) : Log S → Prop
  | empty {log : Log S} (h : EmptyConversation log conversation) :
      WrittenLog outside conversation log
  | call {log : Log S} (h : WrittenLog outside conversation log) {w : TranscriptWriter}
      (hconversation : w.conversationId = conversation)
      (hposition : Position (log.entries conversation) w.parentUuid) (op : WriterOp M)
      (hrewind : ∀ leafUuid, op = .rewind leafUuid → Position (log.entries conversation) leafUuid) :
      WrittenLog outside conversation ((writing outside).step (w, log) op).2.2

section written

variable {outside : Outside S M} {conversation : String} {log : Log S}

theorem EmptyConversation.logOk (h : EmptyConversation log conversation) :
    LogOk outside conversation log := by
  refine ⟨?_, fun u => ?_⟩
  · rw [h.entries]
    exact .nil _
  · rw [h.entries]
    exact iff_of_false (h.seen u) List.not_mem_nil

theorem WrittenLog.ok (hfree : CollisionFree outside)
    (htimes : Function.Injective outside.markerTime) (h : WrittenLog outside conversation log) :
    LogOk outside conversation log := by
  induction h with
  | empty hempty => exact hempty.logOk
  | @call log h w hconversation hposition op hrewind ih =>
    subst hconversation
    cases op with
    | record m =>
      obtain ⟨htip, hw, _⟩ := record_atTip hfree htimes ih hposition m
      have hok := htip.ok
      rwa [hw] at hok
    | rewind leafUuid => exact (rewind_atTip hfree htimes ih (hrewind leafUuid rfl)).1.ok
    | forget deletedUuid =>
      exact (appendMarker_cases ih (.tombstone deletedUuid) fun _ heq => by cases heq).1

/-- **Replacing the history makes it the history**: after any number of replacements on a branch
    that was opened on a log without tombstones, one more leaves the log's messages equal to what
    was desired, and the branch's identities those of the active entries. What was stored is still
    stored, the common prefix keeps its entries, and to do the same again does nothing. -/
theorem replace_makes_history (hfree : CollisionFree outside)
    (htimes : Function.Injective outside.markerTime)
    (hdecode : ∀ m, outside.encode (outside.decode (outside.encode m)) = outside.encode m)
    (hlog : WrittenLog outside conversation log)
    (hplain : ∀ e ∈ log.entries conversation, e.type ≠ "tombstone") (branchId : String)
    (histories : List (List M)) (desired : List M) :
    let opened := Branch.open_ outside log conversation branchId
    let active := fun log : Log S => activeBranch (log.entries conversation)
    let read := fun log : Log S => messagesOf outside (log.entries conversation)
    ∃ b before, opened.replaces outside log histories = some (b, before) ∧
      b.uuids = (active before).map Entry.uuid ∧
      ∃ b' after, b.replace outside before desired = some (b', after) ∧
        SameHistory outside (read after) desired ∧
        b'.uuids = (active after).map Entry.uuid ∧
        before.entries conversation <+: after.entries conversation ∧
        (∀ k ≤ (read before).length,
          SameHistory outside ((read before).take k) (desired.take k) →
            b'.uuids.take k = b.uuids.take k ∧ (active after).take k = (active before).take k) ∧
        b'.replace outside after desired = some (b', after) := by
  intro opened active read
  have hok := hlog.ok hfree htimes
  have hburied : buried (log.entries conversation) = [] :=
    List.filterMap_eq_nil_iff.mpr fun e he => if_neg (hplain e he)
  have hopened : Aligned outside opened log := open_aligned hok hburied hdecode branchId
  obtain ⟨b, before, hbefore, haligned, hgrown⟩ := replaces_aligned hfree htimes hopened histories
  obtain ⟨b', after, hafter, haligned', hgrown', hsame, hkeeps⟩ :=
    replace_aligned hfree htimes haligned desired
  have hb : b.writer.conversationId = conversation := hgrown.conversation
  have hb' : b'.writer.conversationId = conversation := hgrown'.conversation.trans hb
  have hheld := haligned.read_back hdecode
  have hheld' := haligned'.read_back hdecode
  have huuids := haligned.active.1
  have huuids' := haligned'.active.1
  have hentries := hgrown'.entries
  rw [hb] at hheld huuids hentries
  rw [hb'] at hheld' huuids'
  refine ⟨b, before, hbefore, huuids, b', after, hafter, hheld'.trans hsame, huuids', hentries, ?_,
    replace_held hsame⟩
  intro k hk hequal
  have hk' : k ≤ b.messages.length := by
    rw [← hheld.length_eq]
    exact hk
  have hfirst : SameHistory outside (b.messages.take k) (desired.take k) :=
    (hheld.symm.take k).trans hequal
  have hnames := hkeeps k hk' hfirst
  refine ⟨hnames, ?_⟩
  -- an entry that is still there under the same identity is the same entry
  obtain ⟨chain, hchain, _, _⟩ := haligned.chain
  obtain ⟨chain', hchain', _, _⟩ := haligned'.chain
  have hactive := haligned.atTip.activeBranch_eq haligned.plain hchain
  have hactive' := haligned'.atTip.activeBranch_eq haligned'.plain hchain'
  rw [hb] at hchain hactive
  rw [hb'] at hchain' hactive'
  have hnodup : ((after.entries conversation).map Entry.uuid).Nodup := by
    have hwritten := haligned'.atTip.ok.written
    rw [hb'] at hwritten
    exact hwritten.nodup
  rw [huuids, huuids', ← List.map_take, ← List.map_take] at hnames
  refine List.eq_of_map_eq_of_nodup hnodup (fun e he => ?_) (fun e he => ?_) hnames
  · have he' : e ∈ activeBranch (after.entries conversation) := List.mem_of_mem_take he
    rw [hactive'] at he'
    exact hchain'.mem he'
  · have he' : e ∈ activeBranch (before.entries conversation) := List.mem_of_mem_take he
    rw [hactive] at he'
    exact hentries.subset (hchain.mem he')

/-- One prompt is in the log; a branch goes on from it, and is then told that it never was. -/
theorem replace_makes_history_other :
    let log := ((writing plainOutside).step
      ({ conversationId := "c", branchId := "b" }, ({} : Log PyScalar)) (.record "hello")).2.2
    ∃ b before, (Branch.open_ plainOutside log "c" "b").replaces plainOutside log
        [["hello", "again"]] = some (b, before) ∧
      ∃ b' after, b.replace plainOutside before ["bye"] = some (b', after) ∧
        SameHistory plainOutside (messagesOf plainOutside (after.entries "c")) ["bye"] := by
  intro log
  let w : TranscriptWriter := { conversationId := "c", branchId := "b" }
  have hempty : WrittenLog plainOutside "c" ({} : Log PyScalar) :=
    .empty ⟨rfl, fun _ => List.not_mem_nil⟩
  have hlog : WrittenLog plainOutside "c"
      ((writing plainOutside).step (w, ({} : Log PyScalar)) (.record "hello")).2.2 :=
    hempty.call rfl (position_none _) (.record "hello") fun _ heq => by cases heq
  have hplain : ∀ e ∈ log.entries "c", e.type ≠ "tombstone" := by decide +kernel
  obtain ⟨b, before, hbefore, _, b', after, hafter, hread, _⟩ :=
    replace_makes_history plain_collisionFree plain_times (fun _ => rfl) hlog hplain "b"
      [["hello", "again"]] ["bye"]
  exact ⟨b, before, hbefore, b', after, hafter, hread⟩

end written

end Semora
