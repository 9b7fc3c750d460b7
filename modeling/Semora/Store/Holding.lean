import Semora.Store.Frame
import Semora.Store.Lease

/-! # Holding a Branch

    What a worker may believe about a branch whose lease it acquired: as long
    as its token is not stale, nobody else has written the steps it relies on.
    A worker that is not told about a takeover finds out at its next write,
    which raises `Fenced`.

    The belief is justified by a discipline everyone keeps: a step is written
    under a token one was issued, and a lease is acquired and released in
    one's own name. -/

namespace Semora

variable {V : Type}

/-- The steps a call may write. -/
def LedgerOp.keys : LedgerOp V → List String
  | .start _ key _ => [key]
  | .finishEffect _ key _ _ => [key]
  | .resolveEffect _ key _ _ _ => [key]
  | .writeControl _ key _ _ => [key]
  | .forget _ key _ => [key]
  | .commitTransition _ transition _ =>
      transition.effects.map EffectCompletion.key ++ transition.controls.items.map Prod.fst
  | _ => []

namespace MemorySteps

/-! ## Section 1: Calls that leave a step alone -/

theorem entry_setEntry (s : MemorySteps V) (b key b' key' : String) (step : Step V) :
    (s.setEntry b key step).entry b' key'
      = if b' = b ∧ key' = key then step else s.entry b' key' := by
  unfold entry setEntry
  dsimp only
  rw [Dict.getD_set]
  simp only [Prod.mk.injEq]

@[simp] theorem entry_setEntry_self (s : MemorySteps V) (b key : String) (step : Step V) :
    (s.setEntry b key step).entry b key = step := by
  simp [entry_setEntry]

theorem entry_setEntry_ne (s : MemorySteps V) {b key key' : String} (step : Step V)
    (h : key' ≠ key) : (s.setEntry b key step).entry b key' = s.entry b key' := by
  simp [entry_setEntry, h]

theorem fenced_entry {α : Type} {s : MemorySteps V} {b key : String} {token : Int}
    {rest : StoreOutcome V α} (h : rest.2.entry b key = s.entry b key) :
    (s.fenced b token rest).2.entry b key = s.entry b key := by
  rcases fenced_cases s b token rest with heq | ⟨_, _, heq⟩
  · rw [heq]; exact h
  · rw [heq]

theorem setInputStatus_entry (s : MemorySteps V) (b inputId : String) (status : InputStatus)
    (allowed : InputStatus → Bool) (key : String) :
    (s.setInputStatus b inputId status allowed).entry b key = s.entry b key := by
  unfold setInputStatus
  split
  · split <;> rfl
  · rfl

theorem setInputStatus_foldl_entry (s : MemorySteps V) (b : String) (ids : List String)
    (status : InputStatus) (allowed : InputStatus → Bool) (key : String) :
    (ids.foldl (fun s id => s.setInputStatus b id status allowed) s).entry b key
      = s.entry b key :=
  Machine.foldl_keeps (f := fun s : MemorySteps V => s.entry b key)
    (fun s id => setInputStatus_entry s b id status allowed key) s ids

theorem planEffects_keys [BEq V] {s : MemorySteps V} {b : String}
    {effects : List (EffectCompletion V)} {seen : List String}
    {completed : List (String × Option V × Nat)}
    (h : s.planEffects b effects seen = .ok completed) :
    ∀ item ∈ completed, item.1 ∈ effects.map EffectCompletion.key := by
  -- Induction on the effects: the plan keeps some of them, under their keys.
  induction effects generalizing seen completed with
  | nil =>
    cases h
    intro item hitem
    cases hitem
  | cons effect rest ih =>
    unfold planEffects at h
    split at h
    · cases h
    · dsimp only at h
      split at h
      · split at h
        · cases h
        · intro item hitem
          exact List.mem_cons_of_mem _ (ih h item hitem)
      · split at h
        · cases h
        · split at h
          · cases h
          · next more hmore =>
            cases h
            intro item hitem
            rcases List.mem_cons.mp hitem with rfl | hitem
            · exact List.mem_cons_self
            · exact List.mem_cons_of_mem _ (ih hmore item hitem)

theorem applyCompleted_entry (s : MemorySteps V) (b : String)
    (completed : List (String × Option V × Nat)) {key : String}
    (h : ∀ item ∈ completed, item.1 ≠ key) :
    (s.applyCompleted b completed).entry b key = s.entry b key := by
  unfold applyCompleted
  induction completed generalizing s with
  | nil => rfl
  | cons item rest ih =>
    have hne : key ≠ item.1 := Ne.symm (h item List.mem_cons_self)
    rw [List.foldl_cons, ih _ fun i hi => h i (List.mem_cons_of_mem _ hi)]
    exact entry_setEntry_ne s _ hne

theorem applyControls_entry (s : MemorySteps V) (b : String)
    (controls : List (String × Option V)) {key : String}
    (h : ∀ item ∈ controls, item.1 ≠ key) :
    (s.applyControls b controls).entry b key = s.entry b key := by
  unfold applyControls
  induction controls generalizing s with
  | nil => rfl
  | cons item rest ih =>
    have hne : key ≠ item.1 := Ne.symm (h item List.mem_cons_self)
    rw [List.foldl_cons, ih _ fun i hi => h i (List.mem_cons_of_mem _ hi)]
    exact entry_setEntry_ne s _ hne

theorem applyInputs_entry (s : MemorySteps V) (b : String) (inputs : List (String × V))
    (key : String) : (s.applyInputs b inputs).2.entry b key = s.entry b key := by
  induction inputs generalizing s with
  | nil => rfl
  | cons item rest ih =>
    unfold applyInputs
    split
    · exact ih s
    · exact ih (s.appendInput b item.1 item.2)

theorem commitTransition_entry [BEq V] (s : MemorySteps V) (b : String)
    (transition : ExecutionTransition V) (token : Int) {key : String}
    (h : key ∉ (LedgerOp.commitTransition b transition token).keys) :
    (s.commitTransition b transition token).2.entry b key = s.entry b key := by
  obtain ⟨heffects, hcontrols⟩ : key ∉ transition.effects.map EffectCompletion.key ∧
      key ∉ transition.controls.items.map Prod.fst := by
    simpa only [LedgerOp.keys, List.mem_append, not_or] using h
  refine fenced_entry ?_
  split
  · rfl
  · split
    · rfl
    · next completed hplan _ =>
      dsimp only
      rw [applyInputs_entry, applyControls_entry, applyCompleted_entry]
      · rintro item hitem rfl
        exact heffects (planEffects_keys hplan item hitem)
      · rintro item hitem rfl
        exact hcontrols (List.mem_map_of_mem hitem)

/-- A call leaves alone every step it does not name. -/
theorem perform_entry [BEq V] (op : LedgerOp V) (now later : ℚ) (s : MemorySteps V)
    {b key : String} (h : op.branchId ≠ b ∨ key ∉ op.keys) :
    (op.perform now later s).2.entry b key = s.entry b key := by
  -- Another branch is out of reach; on this one each method writes only the keys it names.
  by_cases hb : op.branchId = b
  · have hkey : key ∉ op.keys := h.resolve_left fun hne => hne hb
    subst hb
    cases op with
    | read b key' => rfl
    | listInputs b => rfl
    | start b key' token =>
      have hne : key ≠ key' := by simpa [LedgerOp.keys] using hkey
      refine fenced_entry ?_
      dsimp only
      split
      · rfl
      · exact entry_setEntry_ne s _ hne
    | finishEffect b key' value token =>
      have hne : key ≠ key' := by simpa [LedgerOp.keys] using hkey
      refine fenced_entry ?_
      dsimp only
      split
      · split <;> rfl
      · split
        · rfl
        · exact entry_setEntry_ne s _ hne
    | resolveEffect b key' resolution workersStopped token =>
      have hne : key ≠ key' := by simpa [LedgerOp.keys] using hkey
      refine fenced_entry ?_
      split
      · rfl
      · split
        · split <;> rfl
        · dsimp only
          split
          · rfl
          · exact entry_setEntry_ne s _ hne
    | writeControl b key' value token =>
      have hne : key ≠ key' := by simpa [LedgerOp.keys] using hkey
      exact fenced_entry (entry_setEntry_ne s _ hne)
    | forget b key' token =>
      have hne : key ≠ key' := by simpa [LedgerOp.keys] using hkey
      refine fenced_entry ?_
      dsimp only
      split
      · exact entry_setEntry_ne s _ hne
      · rfl
    | acquire b owner ttl =>
      change (s.acquire b owner ttl now later).2.entry b key = _
      rcases acquire_cases s b owner ttl now later with
        ⟨held, _, _, heq⟩ | ⟨held, _, _, _, heq⟩ | ⟨_, heq⟩ <;> rw [heq] <;> rfl
    | release b owner =>
      change (s.release b owner now).entry b key = _
      rcases release_cases s b owner now with ⟨held, _, _, heq⟩ | ⟨_, heq⟩ <;> rw [heq] <;> rfl
    | enqueueInput b inputId value =>
      simp only [LedgerOp.perform, LedgerOp.branchId, enqueueInput]
      split <;> rfl
    | claimInput b inputId token => exact fenced_entry (setInputStatus_entry s b inputId _ _ key)
    | admitInputs b inputIds token =>
      exact fenced_entry (setInputStatus_foldl_entry s b inputIds _ _ key)
    | discardInputs b inputIds token =>
      exact fenced_entry (setInputStatus_foldl_entry s b inputIds _ _ key)
    | commitTransition b transition token =>
      exact commitTransition_entry s b transition token hkey
  · exact ((perform_frame op now later s hb).entry key).symm

/-! ## Section 2: The lease tables agree -/

/-- The lease row of a branch carries the newest token issued for it. -/
def LeaseOk (s : MemorySteps V) : Prop :=
  ∀ b, 0 ≤ s.issued b ∧ ∀ held, s.leases.get? b = some held →
    held.token = s.issued b ∧ 0 < held.token

theorem leaseOk_init : LeaseOk (MemorySteps.init : MemorySteps V) :=
  fun _ => ⟨Int.le_refl _, fun _ h => nomatch h⟩

theorem issued_setToken (s : MemorySteps V) (b b' : String) (token : Int)
    (leases : Dict String Lease) :
    MemorySteps.issued { s with tokens := s.tokens.set b token, leases := leases } b'
      = if b' = b then token else s.issued b' := by
  simp only [MemorySteps.issued, Dict.getD_set]

theorem leaseOk_sameLeases {s s' : MemorySteps V} (h : LeaseOk s) (hsame : SameLeases s s') :
    LeaseOk s' := by
  intro b
  rw [hsame.issued b, hsame.1]
  exact h b

/-- A lease row replaced by one with the same token. -/
theorem leaseOk_setLease {s : MemorySteps V} (h : LeaseOk s) {b : String} {held : Lease}
    (hheld : s.leases.get? b = some held) (owner : String) (expires : ℚ) :
    LeaseOk { s with leases := s.leases.set b ⟨owner, held.token, expires⟩ } := by
  intro b'
  refine ⟨(h b').1, fun row hrow => ?_⟩
  change (s.leases.set b _).get? b' = some row at hrow
  rw [Dict.get?_set] at hrow
  split at hrow
  · next hb =>
    subst hb
    cases hrow
    exact (h b').2 held hheld
  · exact (h b').2 row hrow

/-- Every call keeps the two tables in step. -/
theorem leaseOk_perform [BEq V] (op : LedgerOp V) (now later : ℚ) {s : MemorySteps V}
    (h : LeaseOk s) : LeaseOk (op.perform now later s).2 := by
  -- Without an owner no lease is written.
  cases hop : op.owner? with
  | none => exact leaseOk_sameLeases h (perform_sameLeases op hop now later s)
  | some owner =>
    cases op with
    | acquire b owner' ttl =>
      change LeaseOk (s.acquire b owner' ttl now later).2
      rcases acquire_cases s b owner' ttl now later with
        ⟨held, hheld, _, heq⟩ | ⟨held, _, _, _, heq⟩ | ⟨_, heq⟩
      · rw [heq]
        exact leaseOk_setLease h hheld owner' _
      · rw [heq]
        exact h
      · rw [heq]
        -- Granted: the row carries the token that was counted up to.
        intro b'
        rw [issued_setToken]
        by_cases hb : b' = b
        · subst hb
          have hpos := (h b').1
          rw [if_pos rfl]
          refine ⟨by omega, fun row hrow => ?_⟩
          rw [Dict.get?_set_self] at hrow
          cases hrow
          exact ⟨rfl, by dsimp only; omega⟩
        · rw [if_neg hb]
          refine ⟨(h b').1, fun row hrow => (h b').2 row ?_⟩
          rwa [Dict.get?_set_ne _ _ hb] at hrow
    | release b owner' =>
      change LeaseOk (s.release b owner' now)
      rcases release_cases s b owner' now with ⟨held, hheld, _, heq⟩ | ⟨_, heq⟩
      · rw [heq]
        exact leaseOk_setLease h hheld "" now
      · rw [heq]
        exact h
    | _ => simp [LedgerOp.owner?] at hop

/-! ## Section 3: Holding and relying -/

/-- `owner` holds branch `b` under token `t`, the newest one. -/
structure Holds (b owner : String) (t : Int) (s : MemorySteps V) : Prop where
  lease : ∃ expires, s.leases.get? b = some ⟨owner, t, expires⟩
  newest : s.issued b = t

/-- A token its owner was issued for `b`: it holds the branch, or is stale by now. -/
def Issued (b owner : String) (t : Int) (s : MemorySteps V) : Prop :=
  t ≠ 0 ∧ (t < s.issued b ∨ Holds b owner t s)

/-- What `owner` may rely on between its own calls: tokens do not fall, and while its token
    is the newest the steps in `keys` stay as they are. -/
structure LeaseRely (b owner : String) (keys : String → Prop) (s s' : MemorySteps V) :
    Prop where
  rises : s.issued b ≤ s'.issued b
  holds : ∀ t, Holds b owner t s → t < s'.issued b ∨
    (Holds b owner t s' ∧ ∀ key, keys key → s'.entry b key = s.entry b key)

variable {b owner : String} {keys : String → Prop} {s s' s'' : MemorySteps V}

theorem LeaseRely.refl (b owner : String) (keys : String → Prop) (s : MemorySteps V) :
    LeaseRely b owner keys s s :=
  ⟨Int.le_refl _, fun _ h => Or.inr ⟨h, fun _ _ => rfl⟩⟩

theorem LeaseRely.trans (h₁ : LeaseRely b owner keys s s') (h₂ : LeaseRely b owner keys s' s'') :
    LeaseRely b owner keys s s'' := by
  refine ⟨Int.le_trans h₁.rises h₂.rises, fun t hholds => ?_⟩
  rcases h₁.holds t hholds with hlt | ⟨hholds', hsame⟩
  · exact Or.inl (Int.lt_of_lt_of_le hlt h₂.rises)
  · rcases h₂.holds t hholds' with hlt | ⟨hholds'', hsame'⟩
    · exact Or.inl hlt
    · exact Or.inr ⟨hholds'', fun key hkey => (hsame' key hkey).trans (hsame key hkey)⟩

/-- A token once issued stays one. -/
theorem Issued.rely {t : Int} (h : Issued b owner t s) (hrely : LeaseRely b owner keys s s') :
    Issued b owner t s' := by
  refine ⟨h.1, ?_⟩
  rcases h.2 with hlt | hholds
  · exact Or.inl (Int.lt_of_lt_of_le hlt hrely.rises)
  · exact (hrely.holds t hholds).imp id fun hsame => hsame.1

/-- Two owners never hold one branch. -/
theorem Holds.owner_eq {owner' : String} {t t' : Int} (h : Holds b owner t s)
    (h' : Holds b owner' t' s) : owner = owner' := by
  obtain ⟨e, he⟩ := h.lease
  obtain ⟨e', he'⟩ := h'.lease
  have := Option.some.inj (he.symm.trans he')
  exact congrArg Lease.owner this

/-- What `acquire` hands out is a token of one's own, or the refusal `0`. -/
theorem acquire_holds (hok : LeaseOk s) (ttl now later : ℚ) :
    (s.acquire b owner ttl now later).1 = 0 ∨
      ((s.acquire b owner ttl now later).1 ≠ 0 ∧
        Holds b owner (s.acquire b owner ttl now later).1
          (s.acquire b owner ttl now later).2) := by
  rcases acquire_cases s b owner ttl now later with
    ⟨held, hheld, rfl, heq⟩ | ⟨held, _, _, _, heq⟩ | ⟨_, heq⟩
  · obtain ⟨htoken, hpos⟩ := (hok b).2 held hheld
    rw [heq]
    refine Or.inr ⟨by dsimp only; omega, ⟨⟨_, Dict.get?_set_self ..⟩, htoken.symm⟩⟩
  · rw [heq]
    exact Or.inl rfl
  · have hpos := (hok b).1
    rw [heq]
    refine Or.inr ⟨by dsimp only; omega, ⟨⟨_, Dict.get?_set_self ..⟩, ?_⟩⟩
    rw [issued_setToken, if_pos rfl]

/-- `acquire` answers the refusal `0` or a token of one's own. -/
theorem perform_acquire [BEq V] {ttl now later : ℚ} {r : Except StoreError Int}
    (hok : LeaseOk s) (h : (LedgerOp.acquire b owner ttl).perform now later s = (r, s')) :
    ∃ t, r = .ok t ∧ (t = 0 ∨ Issued b owner t s') := by
  obtain ⟨rfl, rfl⟩ := Prod.mk.inj h
  exact ⟨_, rfl, (acquire_holds hok ttl now later).imp id fun ⟨hne, hholds⟩ =>
    ⟨hne, Or.inr hholds⟩⟩

/-! ## Section 4: The discipline -/

/-- What `owner` may do to a branch others rely on. -/
inductive Disciplined (b owner : String) (keys : String → Prop) (s : MemorySteps V) :
    LedgerOp V → Prop where
  /-- Another branch is nobody's business here. -/
  | elsewhere {op} (h : op.branchId ≠ b) : Disciplined b owner keys s op
  /-- A call that writes none of the steps. -/
  | harmless {op} (howner : op.owner? = none) (h : ∀ key, keys key → key ∉ op.keys) :
      Disciplined b owner keys s op
  /-- A fenced call under a token of one's own. -/
  | fenced {op t} (htoken : op.token? = some t) (h : Issued b owner t s) :
      Disciplined b owner keys s op
  /-- Acquiring or releasing in one's own name. -/
  | lease {op} (h : op.owner? = some owner) : Disciplined b owner keys s op

theorem owner?_of_token? {op : LedgerOp V} {t : Int} (h : op.token? = some t) :
    op.owner? = none := by
  cases op <;> first | rfl | cases h

theorem leaseRely_elsewhere [BEq V] (keys : String → Prop) (owner : String) (op : LedgerOp V)
    (hb : op.branchId ≠ b) (now later : ℚ) :
    LeaseRely b owner keys s (op.perform now later s).2 := by
  have hagree := perform_frame op now later s hb
  refine ⟨le_of_eq hagree.issued, fun t hholds => Or.inr ⟨⟨?_, ?_⟩, ?_⟩⟩
  · rw [← hagree.lease]
    exact hholds.lease
  · rw [← hagree.issued]
    exact hholds.newest
  · exact fun key _ => (hagree.entry key).symm

/-- A call that is no lease call and leaves the steps alone is relied on by everyone. -/
theorem leaseRely_idle [BEq V] (keys : String → Prop) (owner : String) {op : LedgerOp V}
    (howner : op.owner? = none) (now later : ℚ)
    (hsame : ∀ key, keys key → (op.perform now later s).2.entry b key = s.entry b key) :
    LeaseRely b owner keys s (op.perform now later s).2 := by
  have hleases := perform_sameLeases op howner now later s
  refine ⟨le_of_eq (hleases.issued b).symm, fun t hholds => Or.inr ⟨⟨?_, ?_⟩, hsame⟩⟩
  · rw [hleases.1]
    exact hholds.lease
  · rw [hleases.issued b]
    exact hholds.newest

/-- An acquisition is relied on by everyone: even by its owner, whose token stays when it is
    the newest. -/
theorem leaseRely_acquire [BEq V] (keys : String → Prop) (owner owner' : String)
    (ttl now later : ℚ) :
    LeaseRely b owner' keys s ((LedgerOp.acquire b owner ttl).perform now later s).2 := by
  change LeaseRely b owner' keys s (s.acquire b owner ttl now later).2
  rcases acquire_cases s b owner ttl now later with
    ⟨held, hheld, howner, heq⟩ | ⟨held, _, _, _, heq⟩ | ⟨_, heq⟩
  · rw [heq]
    refine ⟨Int.le_refl _, fun t hholds => Or.inr ⟨⟨?_, hholds.newest⟩, fun _ _ => rfl⟩⟩
    obtain ⟨e, he⟩ := hholds.lease
    have hrow := Option.some.inj (hheld.symm.trans he)
    subst hrow
    obtain rfl : owner' = owner := howner
    exact ⟨_, Dict.get?_set_self ..⟩
  · rw [heq]
    exact LeaseRely.refl ..
  · rw [heq]
    refine ⟨?_, fun t hholds => Or.inl ?_⟩
    · rw [issued_setToken, if_pos rfl]
      omega
    · rw [issued_setToken, if_pos rfl, ← hholds.newest]
      omega

/-- **Whoever keeps the discipline leaves the others what they rely on.** -/
theorem Disciplined.leaseRely [BEq V] {owner' : String} {op : LedgerOp V}
    (h : Disciplined b owner keys s op) (hne : owner' ≠ owner) (now later : ℚ) :
    LeaseRely b owner' keys s (op.perform now later s).2 := by
  -- One case a way of being disciplined.
  cases h with
  | elsewhere hb => exact leaseRely_elsewhere keys owner' _ hb now later
  | harmless howner hkeys =>
    exact leaseRely_idle keys owner' howner now later fun key hkey =>
      perform_entry op now later s (Or.inr (hkeys key hkey))
  | @fenced t htoken hissued =>
    have howner := owner?_of_token? htoken
    by_cases hb : op.branchId = b
    · subst hb
      -- Fenced: stale, it is refused; current, it writes no lease, and nobody else holds this one.
      rcases hissued.2 with hstale | hholds
      · rw [perform_of_stale htoken hissued.1 hstale]
        exact LeaseRely.refl ..
      · have hleases := perform_sameLeases op howner now later s
        refine ⟨le_of_eq (hleases.issued _).symm, fun t' hholds' => ?_⟩
        exact absurd (hholds'.owner_eq hholds) hne
    · exact leaseRely_idle keys owner' howner now later fun key _ =>
        perform_entry op now later s (Or.inl hb)
  | lease howner =>
    cases op with
    | acquire b' w ttl =>
      obtain rfl : w = owner := by simpa [LedgerOp.owner?] using howner
      by_cases hb : b' = b
      · subst hb
        change LeaseRely b' owner' keys s (s.acquire b' w ttl now later).2
        rcases acquire_cases s b' w ttl now later with
          ⟨held, hheld, hw, heq⟩ | ⟨held, _, _, _, heq⟩ | ⟨_, heq⟩
        · rw [heq]
          refine ⟨Int.le_refl _, fun t hholds => ?_⟩
          obtain ⟨e, he⟩ := hholds.lease
          have hrow := Option.some.inj (hheld.symm.trans he)
          rw [hrow] at hw
          exact absurd hw hne
        · rw [heq]
          exact LeaseRely.refl ..
        · rw [heq]
          -- Taken over: the other's token is no longer the newest.
          refine ⟨?_, fun t hholds => Or.inl ?_⟩
          · rw [issued_setToken, if_pos rfl]
            omega
          · rw [issued_setToken, if_pos rfl, ← hholds.newest]
            omega
      · exact leaseRely_elsewhere keys owner' (.acquire b' w ttl) hb now later
    | release b' w =>
      obtain rfl : w = owner := by simpa [LedgerOp.owner?] using howner
      by_cases hb : b' = b
      · subst hb
        change LeaseRely b' owner' keys s (s.release b' w now)
        rcases release_cases s b' w now with ⟨held, hheld, hw, heq⟩ | ⟨_, heq⟩
        · rw [heq]
          refine ⟨Int.le_refl _, fun t hholds => ?_⟩
          obtain ⟨e, he⟩ := hholds.lease
          have hrow := Option.some.inj (hheld.symm.trans he)
          rw [hrow] at hw
          exact absurd hw hne
        · rw [heq]
          exact LeaseRely.refl ..
      · exact leaseRely_elsewhere keys owner' (.release b' w) hb now later
    | _ => simp [LedgerOp.owner?] at howner

/-- One's own calls keep one's tokens, but for a release. -/
theorem Disciplined.issued [BEq V] {op : LedgerOp V} {t : Int}
    (h : Disciplined b owner keys s op) (hissued : Issued b owner t s)
    (hrelease : ∀ w, op ≠ .release b w) (now later : ℚ) :
    Issued b owner t (op.perform now later s).2 := by
  -- an operation of no owner leaves the lease and the counter
  have idle : op.owner? = none → Issued b owner t (op.perform now later s).2 := by
    intro howner
    have hleases := perform_sameLeases op howner now later s
    refine ⟨hissued.1, hissued.2.imp ?_ fun hholds => ⟨?_, ?_⟩⟩
    · rw [hleases.issued b]
      exact id
    · rw [hleases.1]
      exact hholds.lease
    · rw [hleases.issued b]
      exact hholds.newest
  cases h with
  | elsewhere hb => exact hissued.rely (leaseRely_elsewhere keys owner _ hb now later)
  | harmless howner _ => exact idle howner
  | fenced htoken _ => exact idle (owner?_of_token? htoken)
  | lease howner =>
    cases op with
    | acquire b' w ttl =>
      obtain rfl : w = owner := by simpa [LedgerOp.owner?] using howner
      by_cases hb : b' = b
      · subst hb
        change Issued b' w t (s.acquire b' w ttl now later).2
        -- renewed, refused, or taken over with the next token
        rcases acquire_cases s b' w ttl now later with
          ⟨held, hheld, hw, heq⟩ | ⟨held, _, _, _, heq⟩ | ⟨_, heq⟩
        · rw [heq]
          refine ⟨hissued.1, hissued.2.imp id fun hholds => ⟨?_, hholds.newest⟩⟩
          obtain ⟨e, he⟩ := hholds.lease
          obtain rfl := Option.some.inj (hheld.symm.trans he)
          exact ⟨_, Dict.get?_set_self ..⟩
        · rw [heq]
          exact hissued
        · rw [heq]
          refine ⟨hissued.1, Or.inl ?_⟩
          rw [issued_setToken, if_pos rfl]
          rcases hissued.2 with hlt | hholds
          · omega
          · rw [← hholds.newest]
            omega
      · exact hissued.rely (leaseRely_elsewhere keys w (.acquire b' w ttl) hb now later)
    | release b' w =>
      by_cases hb : b' = b
      · -- a release of this very branch is what `hrelease` leaves out
        exact absurd (congrArg (LedgerOp.release · w) hb) (hrelease w)
      · exact hissued.rely (leaseRely_elsewhere keys owner (.release b' w) hb now later)
    | _ => simp [LedgerOp.owner?] at howner

end MemorySteps

end Semora
