import Semora.Store.Frame
import Semora.Store.Transition

/-! # The Queue over a Whole History

    What a branch's queue holds is told by what was ever offered to it: the
    first value of every id, in the order the ids first came, numbered from
    zero. Claiming, admitting and discarding only move an input on.

    * Section 1: offers, and the statuses that move on.
    * Section 2: what one call does: it makes its offers, and then moves
      statuses on.
    * Section 3: what the queue holds, after any history. -/

namespace Semora

open Machine

/-- The inputs a call offers to the queue of its branch. -/
def LedgerOp.offers {V : Type} : LedgerOp V → List (String × V)
  | .enqueueInput _ inputId value => [(inputId, value)]
  | .commitTransition _ transition _ => transition.inputs
  | _ => []

/-- The inputs ever offered to the queue of `b`. A call that raises offers none. -/
def offersTo {V : Type} (b : String) (trace : List (LedgerEvent V)) : List (String × V) :=
  trace.flatMap fun e => if e.1.op.branchId = b ∧ e.2.isOk then e.1.op.offers else []

namespace MemorySteps

variable {V : Type} {s s' s'' : MemorySteps V} {b : String}

/-! ## Section 1: Offers and statuses -/

/-- Inputs are offered to the queue of `b`, one after another. -/
def offerAll (s : MemorySteps V) (b : String) (inputs : List (String × V)) : MemorySteps V :=
  inputs.foldl (fun s item => (s.enqueueInput b item.1 item.2).2) s

/-- An item of the queues moves on: nothing but its status changes, and not backwards. -/
structure MovesOn (item item' : (String × String) × InputRecord V) : Prop where
  key : item'.1 = item.1
  value : item'.2.value = item.2.value
  sequence : item'.2.sequence = item.2.sequence
  named : item.2.inputId = item.1.2 → item'.2.inputId = item.1.2
  later : item.2.status.rank ≤ item'.2.status.rank

/-- Nothing happens to the queues but that items move on. -/
structure Settles (s s' : MemorySteps V) : Prop where
  items : List.Forall₂ MovesOn s.inputs.items s'.inputs.items
  sequence : s'.inputSequence = s.inputSequence

theorem MovesOn.refl (item : (String × String) × InputRecord V) : MovesOn item item :=
  ⟨rfl, rfl, rfl, id, Nat.le_refl _⟩

theorem MovesOn.trans {item item' item'' : (String × String) × InputRecord V}
    (h : MovesOn item item') (h' : MovesOn item' item'') : MovesOn item item'' where
  key := h'.key.trans h.key
  value := h'.value.trans h.value
  sequence := h'.sequence.trans h.sequence
  named hname := (h'.named ((h.named hname).trans (congrArg Prod.snd h.key).symm)).trans
    (congrArg Prod.snd h.key)
  later := Nat.le_trans h.later h'.later

theorem Settles.of_eq (hinputs : s'.inputs = s.inputs)
    (hsequence : s'.inputSequence = s.inputSequence) :
    Settles s s' := by
  refine ⟨?_, hsequence⟩
  rw [hinputs]
  exact List.forall₂_same.mpr fun item _ => .refl item

theorem Settles.refl (s : MemorySteps V) : Settles s s := .of_eq rfl rfl

theorem Settles.trans (h : Settles s s') (h' : Settles s' s'') : Settles s s'' :=
  ⟨List.forall₂_trans (fun _ _ _ hmoves hmoves' => hmoves.trans hmoves') h.items h'.items,
     h'.sequence.trans h.sequence⟩

theorem setInputStatus_settles (s : MemorySteps V) (b inputId : String) (status : InputStatus)
    {allowed : InputStatus → Bool} (h : ∀ old, allowed old = true → old.rank ≤ status.rank) :
    Settles s (s.setInputStatus b inputId status allowed) := by
  unfold setInputStatus
  cases hrecord : s.inputs.get? (b, inputId) with
  | none => exact .refl s
  | some record =>
    dsimp only
    split
    · next hallowed =>
      refine ⟨Dict.forall₂_put .refl ?_ hrecord, rfl⟩
      exact ⟨rfl, rfl, rfl, fun _ => rfl, h _ hallowed⟩
    · exact .refl s

theorem setInputStatuses_settles (b : String) (inputIds : List String) (status : InputStatus)
    {allowed : InputStatus → Bool} (h : ∀ old, allowed old = true → old.rank ≤ status.rank)
    (s : MemorySteps V) : Settles s
      (inputIds.foldl (fun s inputId => s.setInputStatus b inputId status allowed) s) := by
  induction inputIds generalizing s with
  | nil => exact .refl s
  | cons inputId rest ih => exact (setInputStatus_settles s b inputId status h).trans (ih _)

/-! ## Section 2: One call -/

theorem enqueueInput_known {inputId : String} {record : InputRecord V}
    (h : s.inputs.get? (b, inputId) = some record) (value : V) :
    (s.enqueueInput b inputId value).2 = s := by
  unfold enqueueInput
  rw [h]
  rfl

theorem enqueueInput_new {inputId : String} (h : s.inputs.get? (b, inputId) = none) (value : V) :
    (s.enqueueInput b inputId value).2 = s.appendInput b inputId value := by
  unfold enqueueInput
  rw [h]
  rfl

/-- The loop over a transition's inputs offers them. -/
theorem applyInputs_offers (s : MemorySteps V) (b : String) (inputs : List (String × V)) :
    (s.applyInputs b inputs).2 = s.offerAll b inputs := by
  induction inputs generalizing s with
  | nil => rfl
  | cons item rest ih =>
    obtain ⟨inputId, value⟩ := item
    show _ = ((s.enqueueInput b inputId value).2).offerAll b rest
    unfold applyInputs
    cases hrecord : s.inputs.get? (b, inputId) with
    | some record =>
      rw [enqueueInput_known hrecord]
      exact ih s
    | none =>
      rw [enqueueInput_new hrecord]
      exact ih _

theorem offerAll_of_eq {t : MemorySteps V} (hinputs : t.inputs = s.inputs)
    (hsequence : t.inputSequence = s.inputSequence) (b : String) (inputs : List (String × V)) :
    (t.offerAll b inputs).inputs = (s.offerAll b inputs).inputs ∧
      (t.offerAll b inputs).inputSequence = (s.offerAll b inputs).inputSequence := by
  induction inputs generalizing s t with
  | nil => exact ⟨hinputs, hsequence⟩
  | cons item rest ih =>
    obtain ⟨inputId, value⟩ := item
    have hone : (t.enqueueInput b inputId value).2.inputs =
      (s.enqueueInput b inputId value).2.inputs ∧
        (t.enqueueInput b inputId value).2.inputSequence
          = (s.enqueueInput b inputId value).2.inputSequence := by
      unfold enqueueInput appendInput
      rw [hinputs, hsequence]
      split
      · exact ⟨hinputs, hsequence⟩
      · exact ⟨rfl, rfl⟩
    exact ih hone.1 hone.2

theorem fenced_settles {α : Type} {token : Int} {rest : StoreOutcome V α}
    (h : Settles s rest.2) : Settles s (s.fenced b token rest).2 := by
  rcases fenced_cases s b token rest with heq | ⟨_, _, heq⟩
  · rwa [heq]
  · rw [heq]
    exact .refl s

theorem commitTransition_offers [BEq V] (s : MemorySteps V) (b : String)
    (transition : ExecutionTransition V) (token : Int) {r : StoreOutcome V (List String)}
    (hr : s.commitTransition b transition token = r) :
    Settles (s.offerAll b (if r.1.isOk then transition.inputs else [])) r.2 := by
  rcases commitTransition_cases s b transition token with ⟨_, heq⟩ | ⟨_, e, heq⟩
  · obtain rfl := heq.symm.trans hr
    have hcompleted := applyCompleted_queue s b
      ((incomplete s b transition.effects).map (completion s b))
    have hcontrols := applyControls_queue
      (s.applyCompleted b ((incomplete s b transition.effects).map (completion s b))) b
      transition.controls.items
    have hoffers := offerAll_of_eq (hcontrols.1.trans hcompleted.1)
      (hcontrols.2.trans hcompleted.2) b transition.inputs
    show Settles (s.offerAll b transition.inputs) (applyAll s b transition).2
    unfold applyAll
    rw [applyInputs_offers]
    exact .of_eq hoffers.1 hoffers.2
  · obtain rfl := heq.symm.trans hr
    exact .refl s

/-- **One call** makes its offers, and items move on after that. -/
theorem perform_offers [BEq V] (op : LedgerOp V) (now later : ℚ) (s : MemorySteps V) :
    Settles (s.offerAll op.branchId (if (op.perform now later s).1.isOk then op.offers else []))
      (op.perform now later s).2 := by
  -- Two methods offer inputs, three settle some, and the rest leave the queue alone.
  cases op with
  | enqueueInput b inputId value => exact .refl _
  | commitTransition b transition token =>
    exact commitTransition_offers s b transition token rfl
  | claimInput b inputId token =>
    have hforward : ∀ old : InputStatus, decide (old ≠ .admitted ∧ old ≠ .discarded) = true →
        old.rank ≤ InputStatus.claimed.rank := by
      intro old
      cases old <;> decide
    simp only [LedgerOp.offers, ite_self]
    exact fenced_settles (setInputStatus_settles s b inputId .claimed hforward)
  | admitInputs b inputIds token =>
    have hforward : ∀ old : InputStatus, decide (old ≠ .discarded) = true →
        old.rank ≤ InputStatus.admitted.rank := by
      intro old
      cases old <;> decide
    simp only [LedgerOp.offers, ite_self]
    exact fenced_settles (setInputStatuses_settles b inputIds .admitted hforward s)
  | discardInputs b inputIds token =>
    have hforward : ∀ old : InputStatus, true = true →
        old.rank ≤ InputStatus.discarded.rank := by
      intro old _
      cases old <;> decide
    simp only [LedgerOp.offers, ite_self]
    exact fenced_settles (setInputStatuses_settles b inputIds .discarded hforward s)
  | read b key =>
    simp only [LedgerOp.offers, ite_self]
    exact .refl s
  | listInputs b =>
    simp only [LedgerOp.offers, ite_self]
    exact .refl s
  | start b key token =>
    simp only [LedgerOp.offers, ite_self]
    rcases start_cases s b key token with ⟨_, heq⟩ | heq | ⟨_, _, heq⟩
    all_goals
      rw [LedgerOp.perform, heq]
      exact .of_eq rfl rfl
  | finishEffect b key value token =>
    simp only [LedgerOp.offers, ite_self]
    rcases finishEffect_cases s b key value token with ⟨_, heq⟩ | ⟨_, _, heq⟩ | ⟨_, heq⟩
    all_goals
      rw [LedgerOp.perform, heq]
      exact .of_eq rfl rfl
  | resolveEffect b key resolution workersStopped token =>
    simp only [LedgerOp.offers, ite_self]
    rcases resolveEffect_cases s b key resolution workersStopped token with
      ⟨_, heq⟩ | ⟨_, _, _, _, _, heq⟩ | ⟨_, _, _, _, _, heq⟩
    all_goals
      rw [LedgerOp.perform, heq]
      exact .of_eq rfl rfl
  | writeControl b key value token =>
    simp only [LedgerOp.offers, ite_self]
    exact fenced_settles (.of_eq rfl rfl)
  | forget b key token =>
    simp only [LedgerOp.offers, ite_self]
    rcases forget_cases s b key token with ⟨_, heq⟩ | ⟨_, heq⟩ | ⟨_, heq⟩
    all_goals
      rw [LedgerOp.perform, heq]
      exact .of_eq rfl rfl
  | acquire b owner ttl =>
    simp only [LedgerOp.offers, ite_self]
    rcases acquire_cases s b owner ttl now later with ⟨_, _, _, heq⟩ | ⟨_, _, _, _, heq⟩ | ⟨_, heq⟩
    all_goals
      rw [LedgerOp.perform, heq]
      exact .of_eq rfl rfl
  | release b owner =>
    simp only [LedgerOp.offers, ite_self]
    dsimp only [LedgerOp.perform]
    unfold release
    split
    · split <;> exact .of_eq rfl rfl
    · exact .refl s

/-! ## Section 3: What the queue holds -/

/-- The queue of `b` holds the first of every id among the offers, in their order, numbered
    from zero. -/
structure Queued (offers : List (String × V)) (b : String) (s : MemorySteps V) : Prop where
  records : ((s.inputs.items.filter fun item => item.1.1 = b).map fun item =>
    ((item.1.2, item.2.value), item.2.sequence)) = (offers.firstBy Prod.fst).zipIdx
  sequence : s.inputSequence.getD b 0 = (offers.firstBy Prod.fst).length
  named : ∀ item ∈ s.inputs.items, item.1.1 = b → item.2.inputId = item.1.2

theorem Queued.init (b : String) : Queued [] b (init : MemorySteps V) :=
  ⟨rfl, rfl, fun _ hmem => by cases hmem⟩

theorem Queued.known {offers : List (String × V)} (h : Queued offers b s) (inputId : String) :
    s.inputs.get? (b, inputId) = none ↔ inputId ∉ offers.map Prod.fst := by
  have hids : (s.inputs.items.filter fun item => item.1.1 = b).map (fun item => item.1.2)
      = (offers.firstBy Prod.fst).map Prod.fst := by
    have hfst := congrArg (List.map fun x : (String × V) × Nat => x.1.1) h.records
    rw [List.map_map] at hfst
    refine hfst.trans ?_
    show List.map (Prod.fst ∘ Prod.fst) _ = _
    rw [← List.map_map, List.zipIdx_map_fst]
  have hkeys : inputId ∈ offers.map Prod.fst ↔ inputId ∈ (offers.firstBy Prod.fst).map Prod.fst :=
    (List.mem_keys_firstBy Prod.fst).symm
  unfold Dict.get?
  rw [Dict.find_eq_none_iff, hkeys, ← hids, not_iff_not]
  constructor
  · intro hmem
    obtain ⟨item, hitem, hkey⟩ := List.mem_map.mp hmem
    refine List.mem_map.mpr ⟨item, List.mem_filter.mpr ⟨hitem, ?_⟩, congrArg Prod.snd hkey⟩
    exact decide_eq_true (congrArg Prod.fst hkey)
  · intro hmem
    obtain ⟨item, hitem, rfl⟩ := List.mem_map.mp hmem
    obtain ⟨hitem, hb⟩ := List.mem_filter.mp hitem
    exact List.mem_map.mpr ⟨item, hitem, Prod.ext (of_decide_eq_true hb) rfl⟩

/-- An offer is appended when its id is new. -/
theorem Queued.offer {offers : List (String × V)} (h : Queued offers b s) (item : String × V) :
    Queued (offers ++ [item]) b (s.enqueueInput b item.1 item.2).2 := by
  obtain ⟨inputId, value⟩ := item
  have hfirst := List.firstBy_concat Prod.fst offers (inputId, value)
  -- An id offered before changes nothing; a new one is put last, under the next number.
  cases hrecord : s.inputs.get? (b, inputId) with
  | some record =>
    have hmem : inputId ∈ offers.map Prod.fst := by
      by_contra hnew
      rw [(h.known inputId).mpr hnew] at hrecord
      cases hrecord
    rw [if_pos hmem] at hfirst
    rw [enqueueInput_known hrecord]
    exact ⟨hfirst ▸ h.records, hfirst ▸ h.sequence, h.named⟩
  | none =>
    rw [if_neg ((h.known inputId).mp hrecord)] at hfirst
    rw [enqueueInput_new hrecord]
    have hitems : (s.appendInput b inputId value).inputs.items = s.inputs.items ++
        [((b, inputId), ⟨inputId, .pending, value, s.inputSequence.getD b 0⟩)] :=
      Dict.items_set_of_none hrecord _
    refine ⟨?_, ?_, ?_⟩
    · rw [hitems, hfirst, List.filter_append, List.map_append, h.records, List.zipIdx_append]
      simp [h.sequence]
    · show (Dict.set _ b _).getD b 0 = _
      rw [Dict.getD_set, if_pos rfl, hfirst, List.length_append, h.sequence]
      rfl
    · intro item hmem hb
      rw [hitems, List.mem_append] at hmem
      rcases hmem with hmem | hmem
      · exact h.named item hmem hb
      · rw [List.mem_singleton.mp hmem]

theorem Queued.offerAll {offers : List (String × V)} (h : Queued offers b s)
    (inputs : List (String × V)) : Queued (offers ++ inputs) b (s.offerAll b inputs) := by
  induction inputs generalizing s offers with
  | nil => rwa [List.append_nil]
  | cons item rest ih =>
    rw [List.append_cons]
    exact ih (h.offer item)

/-- Items that move on keep their place. -/
theorem Queued.settle {offers : List (String × V)} (h : Queued offers b s) (hs : Settles s s') :
    Queued offers b s' := by
  refine ⟨?_, hs.sequence ▸ h.sequence, ?_⟩
  · rw [← h.records]
    have hsame : ∀ {items items' : List ((String × String) × InputRecord V)},
        List.Forall₂ MovesOn items items' →
        ((items'.filter fun item => item.1.1 = b).map fun item =>
          ((item.1.2, item.2.value), item.2.sequence))
        = (items.filter fun item => item.1.1 = b).map fun item =>
          ((item.1.2, item.2.value), item.2.sequence) := by
      intro items items' hmoves
      -- Settling changes statuses only, entry by entry.
      induction hmoves with
      | nil => rfl
      | cons hmove _ ih =>
        simp only [List.filter_cons, hmove.key]
        split
        · rw [List.map_cons, List.map_cons, ih, hmove.key, hmove.value, hmove.sequence]
        · exact ih
    exact hsame hs.items
  · intro item' hmem hb
    obtain ⟨item, hitem, hmove⟩ := List.forall₂_mem_right hs.items hmem
    rw [hmove.key] at hb ⊢
    exact hmove.named (h.named item hitem hb)

/-- The queue of a branch is its own. -/
theorem Queued.agree {offers : List (String × V)} (h : Queued offers b s) (hs : AgreeOn b s s') :
    Queued offers b s' := by
  refine ⟨hs.queue ▸ h.records, ?_, fun item hmem hb => ?_⟩
  · rw [← h.sequence]
    unfold Dict.getD
    rw [hs.sequence]
  · have hmem' : item ∈ s.inputs.items.filter fun item => item.1.1 = b := by
      rw [hs.queue]
      exact List.mem_filter.mpr ⟨hmem, decide_eq_true hb⟩
    exact h.named item (List.mem_filter.mp hmem').1 hb

/-- After any history the queue holds what was offered to it. -/
theorem after_queued [BEq V] (b : String) (calls : List (LedgerCall V)) :
    Queued (offersTo b ((ledger V).trace .init calls)) b ((ledger V).after .init calls) := by
  refine (ledger V).trace_invariant (J := fun tr s => Queued (offersTo b tr) b s) (.init b)
    (fun tr s c h => ?_) calls
  have hconcat : offersTo b (tr ++ [⟨c, (ledger V).reply s c⟩]) = offersTo b tr ++
      if c.op.branchId = b ∧ ((ledger V).reply s c).isOk then c.op.offers else [] := by
    unfold offersTo
    rw [List.flatMap_append, List.flatMap_singleton]
  rw [hconcat]
  by_cases hb : c.op.branchId = b
  · subst hb
    simp only [true_and]
    exact (h.offerAll _).settle (perform_offers c.op c.now c.later s)
  · rw [if_neg fun hand => hb hand.1, List.append_nil]
    exact h.agree (perform_frame c.op c.now c.later s hb)

/-- The records are listed as the dictionary has them: their numbers are in order. -/
theorem Queued.listInputs_eq {offers : List (String × V)} (h : Queued offers b s) :
    s.listInputs b = (s.inputs.items.filter fun item => item.1.1 = b).map Prod.snd := by
  have hnumbers : ((s.inputs.items.filter fun item => item.1.1 = b).map Prod.snd).map
      InputRecord.sequence = List.range' 0 (offers.firstBy Prod.fst).length := by
    have hsnd := congrArg (List.map Prod.snd) h.records
    rw [List.map_map, List.zipIdx_map_snd] at hsnd
    rw [List.map_map]
    exact hsnd
  have hordered : (((s.inputs.items.filter fun item => item.1.1 = b).map Prod.snd).map
      InputRecord.sequence).Pairwise (· ≤ ·) := by
    rw [hnumbers]
    exact List.pairwise_le_range'
  exact (List.pairwise_map.mp hordered).insertionSort_eq

theorem Queued.mem_listInputs {offers : List (String × V)} (h : Queued offers b s)
    {r : InputRecord V} : r ∈ s.listInputs b ↔ s.inputs.get? (b, r.inputId) = some r := by
  rw [h.listInputs_eq, List.mem_map]
  constructor
  · rintro ⟨item, hitem, rfl⟩
    obtain ⟨hitem, hb⟩ := List.mem_filter.mp hitem
    have hb : item.1.1 = b := of_decide_eq_true hb
    rw [h.named item hitem hb, ← hb]
    exact Dict.get?_of_mem hitem
  · intro hget
    exact ⟨((b, r.inputId), r), List.mem_filter.mpr
      ⟨Dict.mem_of_find hget, decide_eq_true rfl⟩, rfl⟩

/-- What the queue listed, it lists from then on, as far as it was or further. -/
theorem QueueMoves.onwards (h : QueueMoves s s') {key : String × String} {r : InputRecord V}
    (hr : s.inputs.get? key = some r) :
    ∃ r', s'.inputs.get? key = some r' ∧ r.status.rank ≤ r'.status.rank := by
  induction h generalizing r with
  | same inputs _ => exact ⟨r, by rw [inputs, hr], Nat.le_refl _⟩
  | append b inputId value new more ih =>
    refine ih ?_
    rw [appendInput_get, if_neg, hr]
    rintro rfl
    rw [new] at hr
    cases hr
  | @status s s' b inputId record status found later more ih =>
    by_cases hkey : key = (b, inputId)
    · subst hkey
      obtain rfl := Option.some.inj (hr.symm.trans found)
      obtain ⟨r', hr', hlater⟩ := ih (Dict.get?_set_self _ _ _)
      exact ⟨r', hr', Nat.le_trans later hlater⟩
    · exact ih (by rw [Dict.get?_set_ne _ _ hkey, hr])

theorem after_queue [BEq V] (s : MemorySteps V) (calls : List (LedgerCall V)) :
    QueueMoves s ((ledger V).after s calls) := by
  induction calls generalizing s with
  | nil => exact .refl s
  | cons c calls ih => exact (perform_queue c.op c.now c.later s).trans (ih _)

/-- **The queue over a whole history**: after any calls it lists the first of every id ever
    offered to its branch, in the order of the offers and numbered from zero, each once; whatever
    is called after that, no input it lists moves backwards; and no call on another branch
    changes it. -/
theorem queue_history [BEq V] (b : String) (calls more : List (LedgerCall V)) :
    let s := (ledger V).after .init calls
    let offers := offersTo b ((ledger V).trace .init calls)
    ((s.listInputs b).map fun r => ((r.inputId, r.value), r.sequence))
        = (offers.firstBy Prod.fst).zipIdx ∧
    ((s.listInputs b).map InputRecord.inputId).Nodup ∧
    (∀ inputId, inputId ∈ (s.listInputs b).map InputRecord.inputId ↔
      inputId ∈ offers.map Prod.fst) ∧
    (∀ r ∈ s.listInputs b, ∃ r' ∈ ((ledger V).after s more).listInputs b,
      r'.inputId = r.inputId ∧ r.status.rank ≤ r'.status.rank) ∧
    ∀ c : LedgerCall V, c.op.branchId ≠ b →
      ((ledger V).step s c).2.listInputs b = s.listInputs b := by
  intro s offers
  have hqueued : Queued offers b s := after_queued b calls
  have hrecords : ((s.listInputs b).map fun r => ((r.inputId, r.value), r.sequence))
      = (offers.firstBy Prod.fst).zipIdx := by
    rw [hqueued.listInputs_eq, List.map_map, ← hqueued.records]
    refine List.map_congr_left fun item hitem => ?_
    obtain ⟨hitem, hb⟩ := List.mem_filter.mp hitem
    show ((item.2.inputId, item.2.value), item.2.sequence) = _
    rw [hqueued.named item hitem (of_decide_eq_true hb)]
  -- The ids are those of the first offers, so they do not repeat.
  have hids : (s.listInputs b).map InputRecord.inputId =
    (offers.firstBy Prod.fst).map Prod.fst := by
    have hfst := congrArg (List.map fun x : (String × V) × Nat => x.1.1) hrecords
    rw [List.map_map] at hfst
    refine hfst.trans ?_
    show List.map (Prod.fst ∘ Prod.fst) _ = _
    rw [← List.map_map, List.zipIdx_map_fst]
  refine ⟨hrecords, ?_, fun inputId => ?_, fun r hr => ?_, fun c hc => ?_⟩
  · rw [hids]
    exact List.nodup_firstBy Prod.fst offers
  · rw [hids]
    exact List.mem_keys_firstBy Prod.fst
  · -- More calls leave each record in its place, with a status that has not gone back.
    have hqueued' := after_queued b (calls ++ more)
    rw [after_append] at hqueued'
    obtain ⟨r', hr', hlater⟩ := (after_queue s more).onwards (hqueued.mem_listInputs.mp hr)
    have hname : r'.inputId = r.inputId :=
      hqueued'.named ((b, r.inputId), r') (Dict.mem_of_find hr') rfl
    exact ⟨r', hqueued'.mem_listInputs.mpr (hname.symm ▸ hr'), hname, hlater⟩
  · exact (perform_frame c.op c.now c.later s hc).listInputs.symm

end MemorySteps

end Semora
