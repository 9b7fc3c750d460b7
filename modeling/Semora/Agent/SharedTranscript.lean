import Semora.Transcript.Writers
import Semora.Agent.Transcripts

/-! # Attempts over One Transcript

    The attempts of all workers write to one log, each through the branch that
    it opened. Whatever they do and in whatever order, the log stays well kept
    and every open branch anchored in it (`TranscriptState.Sound`); an
    operation of one thread leaves the branches of the others alone, and the
    active branch stays as it is or becomes that of the thread (`Follows`). -/

namespace Semora

open Pool

/-! ## Section 1: Attempts over one transcript -/

section transcript

variable {S C : Type} [PythonScalar S]

/-- Every branch that is open is anchored in a log that is well kept. -/
structure TranscriptState.Sound (outside : Outside S Message) (t : TranscriptState S) : Prop where
  kept : WellKept outside t.log
  anchored : ∀ tid b, t.branches tid = some b → Anchored outside b t.log

/-- What an operation of thread `tid` leaves. -/
structure Leaves (outside : Outside S Message) (tid : Nat) (t t' : TranscriptState S) : Prop where
  sound : t'.Sound outside
  grows : Grows t.log t'.log
  others : ∀ other ≠ tid, t'.branches other = t.branches other

/-- The active branch stays as it is, or becomes that of thread `tid`. -/
def Follows (tid : Nat) (t t' : TranscriptState S) : Prop :=
  ∀ b', t'.branches tid = some b' → ∀ conversation,
    activeUuids t'.log conversation = activeUuids t.log conversation ∨
      (conversation = b'.writer.conversationId ∧ activeUuids t'.log conversation = b'.uuids)

variable {outside : Outside S Message} (time : Nat → String) {t : TranscriptState S} {tid : Nat}

variable (tid) in
/-- A write of the thread's branch. -/
theorem TranscriptState.Sound.moved (h : t.Sound outside) {b b' : Branch Message} {log' : Log S}
    (hanchored : Anchored outside b' log') (hgrown : Grown b t.log b' log')
    (hapart : Apart b.writer.conversationId t.log log')
    (hdone : (b' = b ∧ log' = t.log) ∨ Aligned outside b' log') :
    let t' := (t.moved tid (some (b', log'))).2
    Leaves outside tid t t' ∧ t'.branches tid = some b' ∧ Follows tid t t' := by
  intro t'
  obtain ⟨hkept, hgrows⟩ := h.kept.write hanchored hgrown hapart
  have hself : t'.branches tid = some b' := Function.update_self ..
  have hothers : ∀ other ≠ tid, t'.branches other = t.branches other := fun other hother =>
    Function.update_of_ne hother ..
  refine ⟨⟨⟨hkept, fun other b₂ hb₂ => ?_⟩, hgrows, hothers⟩, hself, fun b₂ hb₂ conversation => ?_⟩
  · -- Only thread `tid` has another branch object; the others' conversations were written apart.
    by_cases hother : other = tid
    · rw [hother, hself] at hb₂
      obtain rfl := Option.some.inj hb₂
      exact hanchored
    · rw [hothers other hother] at hb₂
      exact (h.anchored other b₂ hb₂).grow hkept hgrows
  · rw [hself] at hb₂
    obtain rfl := Option.some.inj hb₂
    -- In its own conversation the branch shows what is active now; in any other nothing was
    -- written.
    by_cases hconversation : conversation = b'.writer.conversationId
    · rcases hdone with ⟨_, hsame⟩ | haligned
      · exact Or.inl (congrArg (activeUuids · conversation) hsame)
      · refine Or.inr ⟨hconversation, ?_⟩
        rw [hconversation]
        exact haligned.activeUuids_eq
    · refine Or.inl ?_
      have hentries := hapart.entries conversation (by rwa [← hgrown.conversation])
      show (activeBranch (log'.entries conversation)).map Entry.uuid = _
      rw [hentries]
      rfl

variable (hfree : CollisionFree outside) (htimes : Function.Injective outside.markerTime)

include hfree htimes

/-- `append`: the thread's branch goes on. -/
theorem TranscriptState.Sound.append (h : t.Sound outside) {b : Branch Message}
    (hb : t.branches tid = some b) (messages : List Message) :
    let t' := (t.perform outside time tid (.append messages)).2
    Leaves outside tid t t' ∧ Follows tid t t' ∧ ∃ b', t'.branches tid = some b' ∧
      b'.writer.conversationId = b.writer.conversationId ∧
      b'.messages = b.messages ++ messages ∧ b.uuids <+: b'.uuids := by
  intro t'
  obtain ⟨b', log', happend, hanchored, hgrown, hmessages, huuids, hdone⟩ :=
    append_anchored hfree htimes (h.anchored tid b hb) messages
  have ht' : t' = (t.moved tid (some (b', log'))).2 := by
    show (t.moved tid ((t.branches tid).bind _)).2 = _
    rw [hb, Option.bind_some, happend]
  obtain ⟨hleaves, hself, hfollows⟩ :=
    h.moved tid hanchored hgrown (append_apart happend) hdone
  rw [ht']
  exact ⟨hleaves, hfollows, b', hself, hgrown.conversation, hmessages, huuids⟩

/-- `replace`: the thread's branch holds the history, and what the two have in common keeps its
    identities. -/
theorem TranscriptState.Sound.replace (h : t.Sound outside) {b : Branch Message}
    (hb : t.branches tid = some b) (desired : List Message) :
    let t' := (t.perform outside time tid (.replace desired)).2
    Leaves outside tid t t' ∧ Follows tid t t' ∧ ∃ b', t'.branches tid = some b' ∧
      b'.writer.conversationId = b.writer.conversationId ∧
      SameHistory outside b'.messages desired ∧
      ∀ k ≤ b.messages.length, SameHistory outside (b.messages.take k) (desired.take k) →
        b'.uuids.take k = b.uuids.take k := by
  intro t'
  obtain ⟨b', log', hreplace, hanchored, hgrown, hsame, hkeeps, hdone⟩ :=
    replace_anchored hfree htimes (h.anchored tid b hb) desired
  have ht' : t' = (t.moved tid (some (b', log'))).2 := by
    show (t.moved tid ((t.branches tid).bind _)).2 = _
    rw [hb, Option.bind_some, hreplace]
  obtain ⟨hleaves, hself, hfollows⟩ :=
    h.moved tid hanchored hgrown (replace_apart hreplace) hdone
  rw [ht']
  exact ⟨hleaves, hfollows, b', hself, hgrown.conversation, hsame, hkeeps⟩

variable (hdecode : ∀ m, outside.encode (outside.decode (outside.encode m)) = outside.encode m)

include hdecode

omit hfree htimes in
variable (tid) in
/-- `Branch.open`: the thread's branch is the active one. -/
theorem TranscriptState.Sound.openBranch (h : t.Sound outside) (conversation branchId : String) :
    let t' := t.openBranch outside time tid conversation branchId
    Leaves outside tid t t' ∧ t'.log = t.log ∧ ∃ b', t'.branches tid = some b' ∧
      b'.writer.conversationId = conversation ∧ b'.uuids = activeUuids t.log conversation := by
  intro t'
  have haligned := h.kept.open_anchored hdecode conversation branchId
  have hself : t'.branches tid = some (Branch.open_ outside t.log conversation branchId) :=
    Function.update_self ..
  have hothers : ∀ other ≠ tid, t'.branches other = t.branches other := fun other hother =>
    Function.update_of_ne hother ..
  refine ⟨⟨⟨h.kept, fun other b hb => ?_⟩, fun _ => List.prefix_refl _, hothers⟩, rfl, _, hself,
    rfl, haligned.activeUuids_eq.symm⟩
  by_cases hother : other = tid
  · rw [hother, hself] at hb
    obtain rfl := Option.some.inj hb
    exact haligned.anchored
  · rw [hothers other hother] at hb
    exact h.anchored other b hb

omit hfree htimes hdecode in
theorem Leaves.refl (h : t.Sound outside) : Leaves outside tid t t :=
  ⟨h, fun _ => List.prefix_refl _, fun _ _ => rfl⟩

/-- Every operation. -/
theorem TranscriptState.Sound.perform (h : t.Sound outside) (op : TranscriptOp) :
    Leaves outside tid t (t.perform outside time tid op).2 := by
  -- One case an operation; without a branch of its own a write leaves everything as it is.
  cases op with
  | openBranch conversation branchId =>
    exact (h.openBranch time tid hdecode conversation branchId).1
  | replace messages =>
    cases hb : t.branches tid with
    | none =>
      have hsame : (t.perform outside time tid (.replace messages)).2 = t := by
        show (t.moved tid ((t.branches tid).bind _)).2 = t
        rw [hb]
        rfl
      rw [hsame]
      exact .refl h
    | some b => exact (h.replace time hfree htimes hb messages).1
  | append messages =>
    cases hb : t.branches tid with
    | none =>
      have hsame : (t.perform outside time tid (.append messages)).2 = t := by
        show (t.moved tid ((t.branches tid).bind _)).2 = t
        rw [hb]
        rfl
      rw [hsame]
      exact .refl h
    | some b => exact (h.append time hfree htimes hb messages).1
  | closed reason toolCalls =>
    show Leaves outside tid t (((t.branches tid).map fun branch =>
      t.closed time branch reason toolCalls).getD t)
    cases t.branches tid with
    | none => exact .refl h
    | some b => exact ⟨⟨h.kept, h.anchored⟩, fun _ => List.prefix_refl _, fun _ _ => rfl⟩
  | readBranch branchId => exact .refl h
  | read conversation cursor => cases cursor <;> exact .refl h

theorem TranscriptState.Sound.event (h : t.Sound outside) (e : Code.Event C) :
    Leaves outside e.tid t (t.event outside time e) := by
  unfold TranscriptState.event
  split
  · exact h.perform time hfree htimes hdecode _
  · exact .refl h

/-- **A transcript that attempts write stays sound**, whoever they are and however they move. -/
theorem TranscriptState.Sound.after (h : t.Sound outside) (log : List (Code.Event C)) :
    (t.after outside time log).Sound outside ∧ Grows t.log (t.after outside time log).log := by
  induction log using List.reverseRecOn with
  | nil => exact ⟨h, fun _ => List.prefix_refl _⟩
  | append_singleton log e ih =>
    obtain ⟨hsound, hgrows⟩ := ih
    have hleaves := hsound.event time hfree htimes hdecode e
    rw [TranscriptState.after_concat]
    exact ⟨hleaves.sound, fun conversation => (hgrows conversation).trans (hleaves.grows _)⟩

omit hfree htimes in
/-- What the thread's write leaves to be read: what was read before, or what its branch holds. -/
theorem Leaves.reads {t' : TranscriptState S} (h : t.Sound outside)
    (hleaves : Leaves outside tid t t') (hfollows : Follows tid t t') {b' : Branch Message}
    (hb' : t'.branches tid = some b') (conversation : String) :
    SameHistory outside (messagesOf outside (t'.log.entries conversation))
        (messagesOf outside (t.log.entries conversation)) ∨
      SameHistory outside (messagesOf outside (t'.log.entries conversation)) b'.messages := by
  rcases hfollows b' hb' conversation with hsame | ⟨rfl, hmoved⟩
  · -- what is active now was active before, so it is what a branch opened then would hold
    have hopened := (h.kept.open_anchored hdecode conversation "").anchored.grow hleaves.sound.kept
      hleaves.grows
    have huuids := (h.kept.open_anchored hdecode conversation "").activeUuids_eq
    exact Or.inl (hopened.reads hdecode hleaves.sound.kept (hsame.trans huuids))
  · exact Or.inr ((hleaves.sound.anchored tid b' hb').reads hdecode hleaves.sound.kept hmoved)

end transcript

/-! ## Section 2: Messages that stay -/

/-- A history is the first part of another, message by message. -/
def FirstOf {S M : Type} [PythonScalar S] (outside : Outside S M) (first history : List M) : Prop :=
  SameHistory outside first (history.take first.length)

section stay

variable {S : Type} [PythonScalar S] {outside : Outside S Message}

theorem FirstOf.trans {first history longer : List Message} (h : FirstOf outside first history)
    (h' : FirstOf outside history longer) : FirstOf outside first longer := by
  unfold FirstOf at h h' ⊢
  have hle : first.length ≤ history.length := by
    rw [h.length_eq, List.length_take]
    exact Nat.min_le_right _ _
  have hshort := h'.take first.length
  rw [List.take_take, Nat.min_eq_left hle] at hshort
  exact h.trans hshort

/-- What was active in an earlier log lies on the thread's branch, if that is of the
    conversation. -/
def OnBranch (earlier : Log S) (conversation : String) (tid : Nat) (t : TranscriptState S) :
    Prop :=
  ∀ b, t.branches tid = some b → b.writer.conversationId = conversation →
    activeUuids earlier conversation <+: b.uuids

variable (time : Nat → String) {t t' : TranscriptState S} {tid : Nat} {earlier : Log S}
  {conversation : String}

omit [PythonScalar S] in
/-- What lies on the thread's branch stays active when the active branch follows it. -/
theorem OnBranch.stays (h : OnBranch earlier conversation tid t') (hfollows : Follows tid t t')
    {b' : Branch Message} (hb' : t'.branches tid = some b')
    (hactive : activeUuids earlier conversation <+: activeUuids t.log conversation) :
    activeUuids earlier conversation <+: activeUuids t'.log conversation := by
  rcases hfollows b' hb' conversation with hsame | ⟨hconversation, hmoved⟩
  · exact hsame.symm ▸ hactive
  · exact hmoved.symm ▸ h b' hb' hconversation.symm

variable (hfree : CollisionFree outside) (htimes : Function.Injective outside.markerTime)
  (hdecode : ∀ m, outside.encode (outside.decode (outside.encode m)) = outside.encode m)

include hfree htimes

theorem OnBranch.append (h : OnBranch earlier conversation tid t) (hsound : t.Sound outside)
    {b : Branch Message} (hb : t.branches tid = some b) (messages : List Message) :
    OnBranch earlier conversation tid (t.perform outside time tid (.append messages)).2 := by
  obtain ⟨_, _, b', hb', hsame, _, huuids⟩ := hsound.append time hfree htimes hb messages
  intro b₂ hb₂ hconversation
  rw [hb'] at hb₂
  obtain rfl := Option.some.inj hb₂
  exact (h b hb (hsame ▸ hconversation)).trans huuids

include hdecode

/-- **A replacement keeps what lies on the branch** exactly when the new history begins with its
    messages. -/
theorem OnBranch.replace_iff (h : OnBranch earlier conversation tid t) (hsound : t.Sound outside)
    (hearlier : WellKept outside earlier) (hgrows : Grows earlier t.log) {b : Branch Message}
    (hb : t.branches tid = some b) (hconversation : b.writer.conversationId = conversation)
    (desired : List Message) :
    OnBranch earlier conversation tid (t.perform outside time tid (.replace desired)).2 ↔
      FirstOf outside (messagesOf outside (earlier.entries conversation)) desired := by
  obtain ⟨hleaves, _, b', hb', hsame, hheld, hkeeps⟩ :=
    hsound.replace time hfree htimes hb desired
  subst hconversation
  let messages := messagesOf outside (earlier.entries b.writer.conversationId)
  obtain ⟨hle, hlength, hbegins⟩ :=
    (hsound.anchored tid b hb).begins hdecode hearlier hgrows (h b hb rfl)
  -- The replacement keeps the common prefix, so what was active earlier stays exactly when it is
  -- one.
  constructor
  · intro h'
    have hprefix_ := h' b' hb' hsame
    have hbegins' := ((hleaves.sound.anchored tid b' hb').begins hdecode hearlier
      (fun c => (hgrows c).trans (hleaves.grows c)) (hsame.symm ▸ hprefix_)).2.2
    rw [hsame] at hbegins'
    exact hbegins'.trans (hheld.take _)
  · intro hdesired b₂ hb₂ _
    rw [hb'] at hb₂
    obtain rfl := Option.some.inj hb₂
    have hfirst : b'.uuids.take messages.length = b.uuids.take messages.length :=
      hkeeps messages.length hle (hbegins.symm.trans hdesired)
    have hactive := List.prefix_iff_eq_take.mp (h b hb rfl)
    rw [← hlength, ← hfirst] at hactive
    rw [hactive]
    exact List.take_prefix _ _

end stay

end Semora
