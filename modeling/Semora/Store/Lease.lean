import Mathlib.Tactic.Linarith
import Semora.Store.Operations

/-! # Leases and Fencing

    `acquire` and `release` keep two tables in step: `_tokens` remembers the
    newest token a branch ever issued, `_leases` who holds the branch now.
    Everything else only reads them, through `_fence`.

    The properties are about whole histories of calls, by any number of
    owners, under any clock that does not run backwards. -/

namespace Semora

open Machine

namespace MemorySteps

variable {V : Type}

/-! ## Section 1: What touches the lease tables -/

/-- Both lease tables as they were. -/
def SameLeases (s s' : MemorySteps V) : Prop :=
  s'.leases = s.leases ∧ s'.tokens = s.tokens

theorem SameLeases.refl (s : MemorySteps V) : SameLeases s s := ⟨rfl, rfl⟩

theorem SameLeases.trans {s₁ s₂ s₃ : MemorySteps V} (h₁ : SameLeases s₁ s₂)
    (h₂ : SameLeases s₂ s₃) : SameLeases s₁ s₃ :=
  ⟨h₂.1.trans h₁.1, h₂.2.trans h₁.2⟩

theorem SameLeases.issued {s s' : MemorySteps V} (h : SameLeases s s') (b : String) :
    s'.issued b = s.issued b := by
  unfold MemorySteps.issued
  rw [h.2]

/-- A stale nonzero token is refused before the method does anything. -/
theorem fenced_of_stale {α : Type} {s : MemorySteps V} {b : String} {token : Int}
    (hzero : token ≠ 0) (hstale : token < s.issued b) (rest : StoreOutcome V α) :
    s.fenced b token rest = (.error (.fenced b token (s.issued b)), s) := by
  simp [fenced, fence, hzero, hstale]

/-- A token the fence admits leaves the method to itself. -/
theorem fenced_of_current {α : Type} {s : MemorySteps V} {b : String} {token : Int}
    (h : token = 0 ∨ s.issued b ≤ token) (rest : StoreOutcome V α) :
    s.fenced b token rest = rest := by
  have hadmit : ¬ (token ≠ 0 ∧ token < s.issued b) := by
    rintro ⟨hzero, hstale⟩
    rcases h with h | h
    · exact hzero h
    · omega
  simp only [fenced, fence, if_neg hadmit]

/-- What a method does behind the fence is what it does, or nothing at all. -/
theorem fenced_cases {α : Type} (s : MemorySteps V) (b : String) (token : Int)
    (rest : StoreOutcome V α) :
    s.fenced b token rest = rest ∨
      (token ≠ 0 ∧ token < s.issued b ∧
        s.fenced b token rest = (.error (.fenced b token (s.issued b)), s)) := by
  by_cases h : token ≠ 0 ∧ token < s.issued b
  · exact Or.inr ⟨h.1, h.2, fenced_of_stale h.1 h.2 rest⟩
  · refine Or.inl (fenced_of_current ?_ rest)
    by_cases hzero : token = 0
    · exact Or.inl hzero
    · exact Or.inr (Int.not_lt.mp fun hlt => h ⟨hzero, hlt⟩)

theorem fenced_sameLeases {α : Type} {s : MemorySteps V} {b : String} {token : Int}
    {rest : StoreOutcome V α} (h : SameLeases s rest.2) :
    SameLeases s (s.fenced b token rest).2 := by
  rcases fenced_cases s b token rest with heq | ⟨_, _, heq⟩
  · rw [heq]; exact h
  · rw [heq]; exact SameLeases.refl s

@[simp] theorem setEntry_leases (s : MemorySteps V) (b key : String) (step : Step V) :
    (s.setEntry b key step).leases = s.leases := rfl

@[simp] theorem setEntry_tokens (s : MemorySteps V) (b key : String) (step : Step V) :
    (s.setEntry b key step).tokens = s.tokens := rfl

@[simp] theorem appendInput_leases (s : MemorySteps V) (b inputId : String) (value : V) :
    (s.appendInput b inputId value).leases = s.leases := rfl

@[simp] theorem appendInput_tokens (s : MemorySteps V) (b inputId : String) (value : V) :
    (s.appendInput b inputId value).tokens = s.tokens := rfl

theorem setInputStatus_sameLeases (s : MemorySteps V) (b inputId : String)
    (status : InputStatus) (allowed : InputStatus → Bool) :
    SameLeases s (s.setInputStatus b inputId status allowed) := by
  unfold setInputStatus
  split
  · split <;> exact ⟨rfl, rfl⟩
  · exact ⟨rfl, rfl⟩

theorem setInputStatus_foldl_sameLeases (s : MemorySteps V) (b : String) (ids : List String)
    (status : InputStatus) (allowed : InputStatus → Bool) :
    SameLeases s (ids.foldl (fun s id => s.setInputStatus b id status allowed) s) :=
  ⟨foldl_keeps (f := MemorySteps.leases)
      (fun s id => (setInputStatus_sameLeases s b id status allowed).1) s ids,
    foldl_keeps (f := MemorySteps.tokens)
      (fun s id => (setInputStatus_sameLeases s b id status allowed).2) s ids⟩

theorem applyCompleted_sameLeases (s : MemorySteps V) (b : String)
    (completed : List (String × Option V × Nat)) :
    SameLeases s (s.applyCompleted b completed) := by
  unfold applyCompleted
  exact ⟨foldl_keeps (f := MemorySteps.leases) (fun _ _ => setEntry_leases ..) s completed,
    foldl_keeps (f := MemorySteps.tokens) (fun _ _ => setEntry_tokens ..) s completed⟩

theorem applyControls_sameLeases (s : MemorySteps V) (b : String)
    (controls : List (String × Option V)) :
    SameLeases s (s.applyControls b controls) := by
  unfold applyControls
  exact ⟨foldl_keeps (f := MemorySteps.leases) (fun _ _ => setEntry_leases ..) s controls,
    foldl_keeps (f := MemorySteps.tokens) (fun _ _ => setEntry_tokens ..) s controls⟩

theorem applyInputs_sameLeases (s : MemorySteps V) (b : String) (inputs : List (String × V)) :
    SameLeases s (s.applyInputs b inputs).2 := by
  induction inputs generalizing s with
  | nil => exact SameLeases.refl s
  | cons item rest ih =>
    unfold applyInputs
    split
    · exact ih s
    · exact ih (s.appendInput b item.1 item.2)

theorem commitTransition_sameLeases [BEq V] (s : MemorySteps V) (b : String)
    (transition : ExecutionTransition V) (token : Int) :
    SameLeases s (s.commitTransition b transition token).2 := by
  refine fenced_sameLeases ?_
  split
  · exact SameLeases.refl s
  · split
    · exact SameLeases.refl s
    · exact ((applyCompleted_sameLeases s b _).trans (applyControls_sameLeases _ b _)).trans
        (applyInputs_sameLeases _ b _)

/-- Only `acquire` and `release` touch the lease tables. -/
theorem perform_sameLeases [BEq V] (op : LedgerOp V) (hop : op.owner? = none)
    (now later : ℚ) (s : MemorySteps V) : SameLeases s (op.perform now later s).2 := by
  -- Only the two operations that name an owner write leases; the others end the same on every
  -- branch.
  cases op with
  | acquire b owner ttl => simp [LedgerOp.owner?] at hop
  | release b owner => simp [LedgerOp.owner?] at hop
  | read b key => exact SameLeases.refl s
  | listInputs b => exact SameLeases.refl s
  | start b key token =>
    refine fenced_sameLeases ?_
    dsimp only
    split <;> exact SameLeases.refl s
  | finishEffect b key value token =>
    refine fenced_sameLeases ?_
    dsimp only
    split
    · split <;> exact SameLeases.refl s
    · split <;> exact SameLeases.refl s
  | resolveEffect b key resolution workersStopped token =>
    refine fenced_sameLeases ?_
    split
    · exact SameLeases.refl s
    · split
      · split <;> exact SameLeases.refl s
      · dsimp only
        split <;> exact SameLeases.refl s
  | writeControl b key value token => exact fenced_sameLeases (SameLeases.refl s)
  | forget b key token =>
    refine fenced_sameLeases ?_
    dsimp only
    split <;> exact SameLeases.refl s
  | enqueueInput b inputId value =>
    simp only [LedgerOp.perform, enqueueInput]
    split <;> exact SameLeases.refl s
  | claimInput b inputId token =>
    exact fenced_sameLeases (setInputStatus_sameLeases s b inputId _ _)
  | admitInputs b inputIds token =>
    exact fenced_sameLeases (setInputStatus_foldl_sameLeases s b inputIds _ _)
  | discardInputs b inputIds token =>
    exact fenced_sameLeases (setInputStatus_foldl_sameLeases s b inputIds _ _)
  | commitTransition b transition token => exact commitTransition_sameLeases s b transition token

/-- A call presenting a stale nonzero token raises `Fenced` and leaves the store alone. -/
theorem perform_of_stale [BEq V] {op : LedgerOp V} {token : Int} (hop : op.token? = some token)
    {s : MemorySteps V} (hzero : token ≠ 0) (hstale : token < s.issued op.branchId)
    (now later : ℚ) :
    op.perform now later s
      = (.error (.fenced op.branchId token (s.issued op.branchId)), s) := by
  cases op <;> simp only [LedgerOp.token?, Option.some.injEq, reduceCtorEq] at hop <;>
    subst hop <;> exact fenced_of_stale hzero hstale _

/-- Everything `acquire` can do: renew, refuse, or grant a new token. -/
theorem acquire_cases (s : MemorySteps V) (b owner : String) (ttl now later : ℚ) :
    (∃ held, s.leases.get? b = some held ∧ held.owner = owner ∧
      s.acquire b owner ttl now later
        = (held.token,
            { s with leases := s.leases.set b ⟨owner, held.token, later + ttl⟩ })) ∨
    (∃ held, s.leases.get? b = some held ∧ held.owner ≠ owner ∧ now < held.expires ∧
      s.acquire b owner ttl now later = (0, s)) ∨
    ((∀ held, s.leases.get? b = some held → held.owner ≠ owner ∧ held.expires ≤ now) ∧
      s.acquire b owner ttl now later
        = (s.issued b + 1,
            { s with
              tokens := s.tokens.set b (s.issued b + 1)
              leases := s.leases.set b ⟨owner, s.issued b + 1, later + ttl⟩ })) := by
  unfold acquire
  cases hheld : s.leases.get? b with
  | none => exact Or.inr (Or.inr ⟨by simp, rfl⟩)
  | some held =>
    -- The holder renews; a stranger waits until the lease has run out.
    by_cases howner : held.owner = owner
    · exact Or.inl ⟨held, rfl, howner, by simp [howner]⟩
    · by_cases hexp : held.expires ≤ now
      · refine Or.inr (Or.inr ⟨?_, by simp [howner, hexp, acquire.grant]⟩)
        intro held' h
        cases h
        exact ⟨howner, hexp⟩
      · exact Or.inr (Or.inl ⟨held, rfl, howner, not_le.mp hexp, by simp [howner, hexp]⟩)

/-- Everything `release` can do: expire the caller's own lease, or nothing. -/
theorem release_cases (s : MemorySteps V) (b owner : String) (now : ℚ) :
    (∃ held, s.leases.get? b = some held ∧ held.owner = owner ∧
      s.release b owner now
        = { s with leases := s.leases.set b ⟨"", held.token, now⟩ }) ∨
    ((∀ held, s.leases.get? b = some held → held.owner ≠ owner) ∧
      s.release b owner now = s) := by
  unfold release
  cases hheld : s.leases.get? b with
  | none => exact Or.inr ⟨by simp, rfl⟩
  | some held =>
    by_cases howner : held.owner = owner
    · exact Or.inl ⟨held, rfl, howner, by simp [howner]⟩
    · exact Or.inr ⟨by rintro _ ⟨⟩; exact howner, by simp [howner]⟩

end MemorySteps

/-! ## Section 2: Lease events -/

variable {V : Type}

/-- A ledger call and its reply. -/
abbrev LedgerEvent (V : Type) : Type :=
  Event fun c : LedgerCall V => Except StoreError c.op.Reply

/-- `acquire` gave `owner` the nonzero `token` for a lease that runs to `expires`. -/
def Grants (b owner : String) (token : Int) (expires : ℚ) : LedgerEvent V → Prop
  | ⟨⟨.acquire b' owner' ttl, _, later⟩, .ok (token' : Int)⟩ =>
      b' = b ∧ owner' = owner ∧ token' = token ∧ token ≠ 0 ∧ later + ttl = expires
  | _ => False

/-- `owner` called `release`. -/
def Releases (b owner : String) : LedgerEvent V → Prop
  | ⟨⟨.release b' owner', _, _⟩, _⟩ => b' = b ∧ owner' = owner
  | _ => False

/-- The lease last granted to `owner` runs to `expires`, and `owner` has not released it. -/
def Leased (tr : List (LedgerEvent V)) (b owner : String) (token : Int) (expires : ℚ) : Prop :=
  Since (Grants b owner token expires)
    (fun e => (∀ t x, ¬ Grants b owner t x e) ∧ ¬ Releases b owner e) tr

/-- `owner` holds the branch: nobody was granted the lease after it, and it
    has not released. -/
def Holder (tr : List (LedgerEvent V)) (b owner : String) (token : Int) (expires : ℚ) : Prop :=
  Since (Grants b owner token expires)
    (fun e => (∀ o t x, ¬ Grants b o t x e) ∧ ¬ Releases b owner e) tr

theorem not_grants_of_owner {e : LedgerEvent V} (h : e.1.op.owner? = none) (b o : String)
    (t : Int) (x : ℚ) : ¬ Grants b o t x e := by
  obtain ⟨⟨op, now, later⟩, reply⟩ := e
  cases op <;> simp_all [Grants, LedgerOp.owner?]

theorem not_releases_of_owner {e : LedgerEvent V} (h : e.1.op.owner? = none)
    (b o : String) : ¬ Releases b o e := by
  obtain ⟨⟨op, now, later⟩, reply⟩ := e
  cases op <;> simp_all [Releases, LedgerOp.owner?]

/-- The clock never runs backwards, within a call or between calls. It may stand still. -/
def Clocked (calls : List (LedgerCall V)) : Prop :=
  calls.Pairwise (fun c d => c.later ≤ d.now) ∧ ∀ c ∈ calls, c.now ≤ c.later

theorem reply_acquire [BEq V] (s : MemorySteps V) (b owner : String) (ttl now later : ℚ) :
    (ledger V).reply s ⟨.acquire b owner ttl, now, later⟩
      = .ok (s.acquire b owner ttl now later).1 := rfl

theorem step_release [BEq V] (s : MemorySteps V) (b owner : String) (now later : ℚ) :
    ((ledger V).step s ⟨.release b owner, now, later⟩).2 = s.release b owner now := rfl

/-! ## Section 3: The invariant of the two tables -/

/-- What the two lease tables say of the history that led to them. -/
structure LeaseInv (tr : List (LedgerEvent V)) (s : MemorySteps V) : Prop where
  issued_nonneg : ∀ b, 0 ≤ s.issued b
  /-- `_tokens` bounds every token handed out. -/
  granted : ∀ e ∈ tr, ∀ b o t x, Grants b o t x e → 1 ≤ t ∧ t ≤ s.issued b
  /-- `_leases` holds the newest token, also after expiry and release. -/
  token : ∀ b held, s.leases.get? b = some held → held.token = s.issued b ∧ 1 ≤ held.token
  holder_of_held : ∀ b held, s.leases.get? b = some held → held.owner ≠ "" →
    Holder tr b held.owner held.token held.expires
  held_of_holder : ∀ b o t x, Holder tr b o t x → s.leases.get? b = some ⟨o, t, x⟩
  /-- An unreleased lease is still on record, or was replaced after it ran out. -/
  leased : ∀ b o t x, Leased tr b o t x →
    s.leases.get? b = some ⟨o, t, x⟩ ∨ ∃ e ∈ tr, x ≤ e.1.now

theorem leaseInv_init : LeaseInv ([] : List (LedgerEvent V)) MemorySteps.init where
  issued_nonneg _ := Int.le_refl 0
  granted _ he := by cases he
  token _ _ h := by simp [MemorySteps.init] at h
  holder_of_held _ _ h := by simp [MemorySteps.init] at h
  held_of_holder _ _ _ _ h := absurd h not_since_nil
  leased _ _ _ _ h := absurd h not_since_nil

/-- An event that is neither a grant nor a release of anything, on unchanged tables. -/
theorem LeaseInv.idle {tr : List (LedgerEvent V)} {s s' : MemorySteps V} (h : LeaseInv tr s)
    (hsame : MemorySteps.SameLeases s s') {e : LedgerEvent V}
    (hgrant : ∀ b o t x, ¬ Grants b o t x e)
    (hrelease : ∀ b held, s.leases.get? b = some held → ¬ Releases b held.owner e) :
    LeaseInv (tr ++ [e]) s' where
  issued_nonneg b := by rw [hsame.issued]; exact h.issued_nonneg b
  granted e' he' b o t x hg := by
    rw [hsame.issued]
    rcases List.mem_append.mp he' with he' | he'
    · exact h.granted e' he' b o t x hg
    · cases List.mem_singleton.mp he'
      exact absurd hg (hgrant b o t x)
  token b held hheld := by
    rw [hsame.issued]
    exact h.token b held (hsame.1 ▸ hheld)
  holder_of_held b held hheld hnamed := by
    have hheld' : s.leases.get? b = some held := hsame.1 ▸ hheld
    exact since_concat.mpr (Or.inr ⟨h.holder_of_held b held hheld' hnamed,
      hgrant b, hrelease b held hheld'⟩)
  held_of_holder b o t x hh := by
    rw [hsame.1]
    -- An event that neither grants nor releases changes no one's standing.
    rcases since_concat.mp hh with hg | ⟨hh, _⟩
    · exact absurd hg (hgrant b o t x)
    · exact h.held_of_holder b o t x hh
  leased b o t x hl := by
    rw [hsame.1]
    rcases since_concat.mp hl with hg | ⟨hl, _⟩
    · exact absurd hg (hgrant b o t x)
    · rcases h.leased b o t x hl with hheld | ⟨e', he', hx⟩
      · exact Or.inl hheld
      · exact Or.inr ⟨e', by simp [he'], hx⟩

/-- `acquire` handing out a token: the holder's own again, or the next one
    to somebody else once the lease on record has run out. -/
theorem LeaseInv.grant {tr : List (LedgerEvent V)} {s s' : MemorySteps V} (h : LeaseInv tr s)
    {b₀ o₀ : String} {ttl now later : ℚ} {token : Int}
    (hpos : 1 ≤ token) (hnew : s.issued b₀ ≤ token)
    (hleases : s'.leases = s.leases.set b₀ ⟨o₀, token, later + ttl⟩)
    (hissued : ∀ b, s'.issued b = if b = b₀ then token else s.issued b)
    (hprev : ∀ held, s.leases.get? b₀ = some held → held.owner = o₀ ∨ held.expires ≤ now) :
    LeaseInv (tr ++ [⟨⟨.acquire b₀ o₀ ttl, now, later⟩, .ok token⟩]) s' := by
  have hnz : token ≠ 0 := by omega
  have hevent : ∀ b o t x, Grants b o t x
      (⟨⟨.acquire b₀ o₀ ttl, now, later⟩, .ok token⟩ : LedgerEvent V) ↔
      b₀ = b ∧ o₀ = o ∧ token = t ∧ t ≠ 0 ∧ later + ttl = x := fun _ _ _ _ => Iff.rfl
  -- Only the lease of `b₀` is new, and it is the one just granted.
  have hget : ∀ b, s'.leases.get? b
      = if b = b₀ then some ⟨o₀, token, later + ttl⟩ else s.leases.get? b := by
    intro b
    rw [hleases, Dict.get?_set]
  -- One bullet a field of the invariant; each splits on whether the branch is `b₀`.
  refine ⟨?_, ?_, ?_, ?_, ?_, ?_⟩
  · intro b
    rw [hissued]
    split
    · omega
    · exact h.issued_nonneg b
  · intro e he b o t x hg
    rw [hissued]
    rcases List.mem_append.mp he with he | he
    · have hold := h.granted e he b o t x hg
      split
      · next hb => subst hb; omega
      · exact hold
    · cases List.mem_singleton.mp he
      obtain ⟨rfl, _, rfl, _, _⟩ := (hevent b o t x).mp hg
      simp only [if_pos]
      omega
  · intro b held hheld
    rw [hget] at hheld
    rw [hissued]
    split at hheld
    · next hb =>
      cases hheld
      exact ⟨by rw [if_pos hb], hpos⟩
    · next hb =>
      rw [if_neg hb]
      exact h.token b held hheld
  · intro b held hheld hnamed
    rw [hget] at hheld
    split at hheld
    · next hb =>
      cases hheld
      -- The new row: it was granted by this very event.
      exact since_concat.mpr (Or.inl ((hevent ..).mpr ⟨hb.symm, rfl, rfl, hnz, rfl⟩))
    · next hb =>
      refine since_concat.mpr (Or.inr ⟨h.holder_of_held b held hheld hnamed, ?_, id⟩)
      intro o t x hg
      exact hb ((hevent b o t x).mp hg).1.symm
  · intro b o t x hh
    rw [hget]
    rcases since_concat.mp hh with hg | ⟨hh, hnone, _⟩
    · obtain ⟨rfl, rfl, rfl, _, rfl⟩ := (hevent b o t x).mp hg
      rw [if_pos rfl]
    · -- Whoever held before still does, unless this grant ended it.
      have hb : b ≠ b₀ := by
        rintro rfl
        exact hnone o₀ token (later + ttl) ((hevent ..).mpr ⟨rfl, rfl, rfl, hnz, rfl⟩)
      rw [if_neg hb]
      exact h.held_of_holder b o t x hh
  · intro b o t x hl
    rw [hget]
    rcases since_concat.mp hl with hg | ⟨hl, hnone, _⟩
    · obtain ⟨rfl, rfl, rfl, _, rfl⟩ := (hevent b o t x).mp hg
      exact Or.inl (by rw [if_pos rfl])
    · rcases h.leased b o t x hl with hheld | ⟨e, he, hx⟩
      · by_cases hb : b = b₀
        · subst hb
          -- A lease of `b₀` that was replaced had the same owner, or had run out.
          rcases hprev _ hheld with howner | hexp
          · exact absurd ((hevent ..).mpr ⟨rfl, howner.symm, rfl, hnz, rfl⟩)
              (hnone token (later + ttl))
          · exact Or.inr ⟨_, List.mem_append_right _ (List.mem_singleton_self _), hexp⟩
        · exact Or.inl (by rw [if_neg hb]; exact hheld)
      · exact Or.inr ⟨e, by simp [he], hx⟩

/-- `release` by the holder: the lease stays on record without an owner. -/
theorem LeaseInv.release {tr : List (LedgerEvent V)} {s s' : MemorySteps V} (h : LeaseInv tr s)
    {b₀ o₀ : String} {now later : ℚ} {reply : Except StoreError Unit} {held₀ : Lease}
    (hheld₀ : s.leases.get? b₀ = some held₀) (howner : held₀.owner = o₀)
    (hleases : s'.leases = s.leases.set b₀ ⟨"", held₀.token, now⟩)
    (htokens : s'.tokens = s.tokens) :
    LeaseInv (tr ++ [⟨⟨.release b₀ o₀, now, later⟩, reply⟩]) s' := by
  have hgrant : ∀ b o t x, ¬ Grants b o t x
      (⟨⟨.release b₀ o₀, now, later⟩, reply⟩ : LedgerEvent V) := fun _ _ _ _ => id
  have hevent : ∀ b o, Releases b o
      (⟨⟨.release b₀ o₀, now, later⟩, reply⟩ : LedgerEvent V) ↔ b₀ = b ∧ o₀ = o :=
    fun _ _ => Iff.rfl
  have hissued : ∀ b, s'.issued b = s.issued b := by
    intro b
    unfold MemorySteps.issued
    rw [htokens]
  -- Only the row of `b₀` changes: it names no one, with the same token.
  have hget : ∀ b, s'.leases.get? b
      = if b = b₀ then some ⟨"", held₀.token, now⟩ else s.leases.get? b := by
    intro b
    rw [hleases, Dict.get?_set]
  -- One bullet a field of the invariant; no event grants here.
  refine ⟨?_, ?_, ?_, ?_, ?_, ?_⟩
  · intro b
    rw [hissued]
    exact h.issued_nonneg b
  · intro e he b o t x hg
    rw [hissued]
    rcases List.mem_append.mp he with he | he
    · exact h.granted e he b o t x hg
    · cases List.mem_singleton.mp he
      exact absurd hg (hgrant b o t x)
  · intro b held hheld
    rw [hget] at hheld
    rw [hissued]
    split at hheld
    · next hb =>
      cases hheld
      subst hb
      exact h.token b held₀ hheld₀
    · exact h.token b held hheld
  · intro b held hheld hnamed
    rw [hget] at hheld
    split at hheld
    · cases hheld
      -- The released row has no owner to account for.
      exact absurd rfl hnamed
    · next hb =>
      refine since_concat.mpr (Or.inr ⟨h.holder_of_held b held hheld hnamed, hgrant b, ?_⟩)
      intro hrel
      exact hb ((hevent _ _).mp hrel).1.symm
  · intro b o t x hh
    rw [hget]
    rcases since_concat.mp hh with hg | ⟨hh, _, hrel⟩
    · exact absurd hg (hgrant b o t x)
    · -- The holder of `b₀` is the one who released it, so it holds no more.
      have hold := h.held_of_holder b o t x hh
      have hb : b ≠ b₀ := by
        rintro rfl
        rw [hheld₀] at hold
        cases hold
        exact hrel ((hevent _ _).mpr ⟨rfl, howner.symm⟩)
      rw [if_neg hb]
      exact hold
  · intro b o t x hl
    rw [hget]
    rcases since_concat.mp hl with hg | ⟨hl, _, hrel⟩
    · exact absurd hg (hgrant b o t x)
    · rcases h.leased b o t x hl with hheld | ⟨e, he, hx⟩
      · have hb : b ≠ b₀ := by
          rintro rfl
          rw [hheld₀] at hheld
          cases hheld
          exact hrel ((hevent _ _).mpr ⟨rfl, howner.symm⟩)
        exact Or.inl (by rw [if_neg hb]; exact hheld)
      · exact Or.inr ⟨e, by simp [he], hx⟩

/-- One call keeps the invariant. -/
theorem leaseInv_step [BEq V] {tr : List (LedgerEvent V)} {s : MemorySteps V}
    (h : LeaseInv tr s) (c : LedgerCall V) :
    LeaseInv (tr ++ [⟨c, (ledger V).reply s c⟩]) ((ledger V).step s c).2 := by
  obtain ⟨op, now, later⟩ := c
  cases hop : op.owner? with
  | none =>
    -- an operation of no owner keeps the leases as they are
    exact h.idle (MemorySteps.perform_sameLeases op hop now later s)
      (fun b o t x => not_grants_of_owner hop b o t x)
      (fun b held _ => not_releases_of_owner hop b held.owner)
  | some owner =>
    cases op <;> simp only [LedgerOp.owner?, Option.some.injEq, reduceCtorEq] at hop
    case acquire b₀ o₀ ttl =>
      simp only [ledger, Machine.reply, LedgerOp.perform]
      rcases MemorySteps.acquire_cases s b₀ o₀ ttl now later with
        ⟨held, hheld, howner, heq⟩ | ⟨held, hheld, howner, hlive, heq⟩ | ⟨hprev, heq⟩
      · -- renewal: the token of the lease on record, which is the newest one
        have htok := h.token b₀ held hheld
        rw [heq]
        refine h.grant htok.2 (le_of_eq htok.1.symm) rfl ?_ ?_
        · intro b
          split
          · next hb => subst hb; exact htok.1.symm
          · rfl
        · intro held' hheld'
          rw [hheld] at hheld'
          cases hheld'
          exact Or.inl howner
      · -- refused: the token is zero, so nothing was granted
        rw [heq]
        refine h.idle (MemorySteps.SameLeases.refl s) ?_ (fun _ _ _ => id)
        rintro b o t x ⟨_, _, rfl, hnz, _⟩
        exact hnz rfl
      · -- a new lease or a takeover
        have hnn := h.issued_nonneg b₀
        rw [heq]
        refine h.grant (by omega) (by omega) rfl ?_ ?_
        · intro b
          simp only [MemorySteps.issued, Dict.getD_set]
        · exact fun held hheld => Or.inr (hprev held hheld).2
    case release b₀ o₀ =>
      simp only [ledger, Machine.reply, LedgerOp.perform]
      rcases MemorySteps.release_cases s b₀ o₀ now with
        ⟨held, hheld, howner, heq⟩ | ⟨hother, heq⟩
      · rw [heq]
        exact h.release hheld howner rfl rfl
      · rw [heq]
        refine h.idle (MemorySteps.SameLeases.refl s) (fun _ _ _ _ => id) ?_
        rintro b held hheld ⟨rfl, howner⟩
        exact hother held hheld howner.symm

/-- The invariant holds after every history. -/
theorem leaseInv_after [BEq V] (calls : List (LedgerCall V)) :
    LeaseInv ((ledger V).trace .init calls) ((ledger V).after .init calls) :=
  (ledger V).trace_invariant leaseInv_init (fun _ _ c ih => leaseInv_step ih c) calls

/-! ## Section 4: Exclusion and fencing -/

/-- What a history of calls promises about the next one. -/
structure LeaseSafety [BEq V] (calls : List (LedgerCall V)) : Prop where
  /-- While another owner's lease is unexpired and unreleased, nobody gets a token. -/
  exclusive : ∀ b owner other ttl now later token expires,
    (∀ c ∈ calls, c.later ≤ now) → other ≠ owner →
    Leased ((ledger V).trace .init calls) b other token expires → now < expires →
    (ledger V).reply ((ledger V).after .init calls) ⟨.acquire b owner ttl, now, later⟩
      = .ok (0 : Int)
  /-- The holder's renewals return its own token again. -/
  renewal : ∀ b owner ttl now later token expires,
    Holder ((ledger V).trace .init calls) b owner token expires →
    (ledger V).reply ((ledger V).after .init calls) ⟨.acquire b owner ttl, now, later⟩
      = .ok token
  /-- A change of holder returns a token above every token issued before. -/
  fresh : ∀ b owner ttl now later (token : Int), owner ≠ "" → token ≠ 0 →
    (¬ ∃ t x, Holder ((ledger V).trace .init calls) b owner t x) →
    (ledger V).reply ((ledger V).after .init calls) ⟨.acquire b owner ttl, now, later⟩
      = .ok token →
    ∀ e ∈ (ledger V).trace .init calls, ∀ o t x, Grants b o t x e → t < token
  /-- Once a newer token is out, a call presenting an older one raises `Fenced` and leaves
      the whole store as it was. -/
  stale : ∀ (op : LedgerOp V) now later (token newer : Int), op.token? = some token →
    token ≠ 0 → token < newer →
    (∃ e ∈ (ledger V).trace .init calls, ∃ o x, Grants op.branchId o newer x e) →
    (ledger V).step ((ledger V).after .init calls) ⟨op, now, later⟩
      = (.error (.fenced op.branchId token (((ledger V).after .init calls).issued op.branchId)),
          (ledger V).after .init calls)
  /-- `release` by an owner that does not hold the branch changes nothing. -/
  release : ∀ b owner now later, owner ≠ "" →
    (¬ ∃ t x, Holder ((ledger V).trace .init calls) b owner t x) →
    ((ledger V).step ((ledger V).after .init calls) ⟨.release b owner, now, later⟩).2
      = (ledger V).after .init calls

/-- **Lease exclusion and fencing.** After every history of calls under a clock that does
    not run backwards: one holder at a time, tokens that only grow from holder to holder,
    and no effect for a stale token. The clock is read when a call comes and again when it
    has an expiry to write; both readings may be anything that does not go back. -/
theorem lease_exclusion_and_fencing [BEq V] (calls : List (LedgerCall V))
    (hclock : Clocked calls) : LeaseSafety calls := by
  have hinv := leaseInv_after calls
  generalize hs : (ledger V).after .init calls = s at hinv
  -- The five clauses in turn, each read off the invariant in the state reached.
  refine ⟨?_, ?_, ?_, ?_, ?_⟩ <;> rw [hs]
  · intro b owner other ttl now later token expires hnow hne hleased hlive
    have hheld : s.leases.get? b = some ⟨other, token, expires⟩ := by
      rcases hinv.leased b other token expires hleased with hheld | ⟨e, he, hexp⟩
      · exact hheld
      · -- the lease on record was replaced, but only after it had run out
        have hmem := (ledger V).mem_of_mem_trace he
        have h₁ := hclock.2 e.1 hmem
        have h₂ := hnow e.1 hmem
        linarith
    rw [reply_acquire]
    simp [MemorySteps.acquire, hheld, hne, not_le.mpr hlive]
  · intro b owner ttl now later token expires hholder
    -- The holder finds its own lease, and renews it.
    have hheld := hinv.held_of_holder b owner token expires hholder
    rw [reply_acquire]
    simp [MemorySteps.acquire, hheld]
  · intro b owner ttl now later token hname hnz hnot hreply e he o t x hg
    have hissued := (hinv.granted e he b o t x hg).2
    have htoken : (s.acquire b owner ttl now later).1 = token := Except.ok.inj hreply
    -- A new token: a renewal is excluded, and a refusal answers zero, so it is the next one.
    rcases MemorySteps.acquire_cases s b owner ttl now later with
      ⟨held, hheld, howner, _⟩ | ⟨held, _, _, _, heq⟩ | ⟨_, heq⟩
    · refine absurd ⟨held.token, held.expires, ?_⟩ hnot
      have hholder := hinv.holder_of_held b held hheld (howner ▸ hname)
      rwa [howner] at hholder
    · rw [heq] at htoken
      exact absurd htoken.symm hnz
    · rw [heq] at htoken
      have : s.issued b + 1 = token := htoken
      omega
  · rintro op now later token newer hop hnz hlt ⟨e, he, o, x, hg⟩
    have hissued := (hinv.granted e he op.branchId o newer x hg).2
    -- A newer grant was issued, so the older token is stale.
    exact MemorySteps.perform_of_stale hop hnz (lt_of_lt_of_le hlt hissued) now later
  · intro b owner now later hname hnot
    rw [step_release]
    -- Who does not hold the lease releases nothing.
    rcases MemorySteps.release_cases s b owner now with ⟨held, hheld, howner, _⟩ | ⟨_, heq⟩
    · refine absurd ⟨held.token, held.expires, ?_⟩ hnot
      have hholder := hinv.holder_of_held b held hheld (howner ▸ hname)
      rwa [howner] at hholder
    · exact heq

/-- Two owners in turn: the second takes over an expired lease. -/
theorem lease_exclusion_and_fencing_takeover :
    LeaseSafety (V := Nat)
      [⟨.acquire "b" "w1" 5, 0, 1⟩, ⟨.start "b" "k" 1, 2, 2⟩, ⟨.acquire "b" "w2" 5, 7, 8⟩] :=
  lease_exclusion_and_fencing _ ⟨by
    simp only [List.pairwise_cons, List.mem_cons, List.not_mem_nil, or_false, forall_eq_or_imp,
      forall_eq, List.Pairwise.nil]
    norm_num, by
    simp only [List.mem_cons, List.not_mem_nil, or_false, forall_eq_or_imp, forall_eq]
    norm_num⟩

end Semora
