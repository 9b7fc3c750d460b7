import Semora.Store.Frame

/-! # Conversation-Scoped Views

    `ConversationScopedSteps` and `MemorySteps.for_execution`. A view files
    every branch it touches under its conversation, as one string
    `"<conversation>/<branch>"`; without a conversation the view is the whole
    ledger and a branch is filed under its own id.

    The layout is not injective: the separator may occur in either
    identifier. So two scopes are isolated from each other exactly when the
    names they are filed under do not overlap, and the module proves both
    directions over every history of calls. -/

namespace Semora

open Machine MemorySteps

/-! ## Section 1: Scopes -/

/-- `ExecutionContext`, as far as the ledger reads it. -/
structure ExecutionContext where
  branchId : String
  conversationId : Option String := none
  /-- `execution context requires a non-empty branch_id`. -/
  nonempty : branchId ≠ "" := by decide
  deriving DecidableEq

/-- `ConversationScopedSteps._filed`. -/
def filed (conversationId branchId : String) : String := conversationId ++ "/" ++ branchId

/-- What `for_execution` returns: the whole ledger, or one conversation's view of it. -/
inductive View where
  | whole
  | conversation (conversationId : String)

/-- `MemorySteps.for_execution`. -/
def forExecution (context : ExecutionContext) : View :=
  match context.conversationId with
  | none => .whole
  | some conversationId => .conversation conversationId

section methods

variable {V : Type} [BEq V]

/-- The methods of `ConversationScopedSteps`. -/
def ConversationScopedSteps.perform (conversationId : String) (op : LedgerOp V)
    (now later : ℚ) (s : MemorySteps V) : Except StoreError op.Reply × MemorySteps V :=
  match op with
  | .read b key => (LedgerOp.read (filed conversationId b) key).perform now later s
  | .start b key token => (LedgerOp.start (filed conversationId b) key token).perform now later s
  | .finishEffect b key value token =>
      (LedgerOp.finishEffect (filed conversationId b) key value token).perform now later s
  | .resolveEffect b key resolution workersStopped token =>
      (LedgerOp.resolveEffect (filed conversationId b) key resolution workersStopped
        token).perform now later s
  | .writeControl b key value token =>
      (LedgerOp.writeControl (filed conversationId b) key value token).perform now later s
  | .forget b key token => (LedgerOp.forget (filed conversationId b) key token).perform now later s
  | .acquire b owner ttl =>
      (LedgerOp.acquire (filed conversationId b) owner ttl).perform now later s
  | .release b owner => (LedgerOp.release (filed conversationId b) owner).perform now later s
  | .enqueueInput b inputId value =>
      (LedgerOp.enqueueInput (filed conversationId b) inputId value).perform now later s
  | .listInputs b => (LedgerOp.listInputs (filed conversationId b)).perform now later s
  | .claimInput b inputId token =>
      (LedgerOp.claimInput (filed conversationId b) inputId token).perform now later s
  | .admitInputs b inputIds token =>
      (LedgerOp.admitInputs (filed conversationId b) inputIds token).perform now later s
  | .discardInputs b inputIds token =>
      (LedgerOp.discardInputs (filed conversationId b) inputIds token).perform now later s
  | .commitTransition b transition token =>
      (LedgerOp.commitTransition (filed conversationId b) transition token).perform now later s

/-- A method called through a view. -/
def View.perform (view : View) (op : LedgerOp V) (now later : ℚ) (s : MemorySteps V) :
    Except StoreError op.Reply × MemorySteps V :=
  match view with
  | .whole => op.perform now later s
  | .conversation conversationId =>
      ConversationScopedSteps.perform conversationId op now later s

end methods

/-- The name a view files a branch under in the underlying store. -/
def View.name (view : View) (branchId : String) : String :=
  match view with
  | .whole => branchId
  | .conversation conversationId => filed conversationId branchId

/-- The name a scope's own branch is filed under. -/
def ExecutionContext.filedName (context : ExecutionContext) : String :=
  (forExecution context).name context.branchId

/-! ## Section 2: Histories of scoped calls -/

/-- A call on a scope's branch, made through the scope's view. -/
structure ScopedCall (V : Type) where
  context : ExecutionContext
  op : LedgerOp V
  now : ℚ
  later : ℚ
  onBranch : op.branchId = context.branchId

/-- The ledger as its views answer for it. -/
def scopedLedger (V : Type) [BEq V] :
    Machine (MemorySteps V) (ScopedCall V) fun c => Except StoreError c.op.Reply where
  step s c := (forExecution c.context).perform c.op c.now c.later s

/-- Nothing scope `p` does shows through the view of scope `q`: every call of
    `q`, after any history, is answered as if the calls of `p` in the history
    had not been made. -/
def Isolated (V : Type) [BEq V] (p q : ExecutionContext) : Prop :=
  ∀ (calls : List (ScopedCall V)) (c : ScopedCall V), c.context = q →
    (scopedLedger V).reply ((scopedLedger V).after .init calls) c
      = (scopedLedger V).reply
          ((scopedLedger V).after .init (calls.filter fun d => !decide (d.context = p))) c

/-- One scope's identifiers continue the other's: the branch id of `p` begins
    with what the conversation of `q` adds to the conversation of `p`. -/
def Continues (p q : ExecutionContext) : Prop :=
  match p.conversationId, q.conversationId with
  | none, some d => p.branchId = d ++ "/" ++ q.branchId
  | some c, some d => ∃ middle, d = c ++ "/" ++ middle ∧ p.branchId = middle ++ "/" ++ q.branchId
  | _, none => False

/-! ## Section 3: Frame and congruence through a view -/

section views

variable {V : Type} [BEq V] {s t : MemorySteps V}

/-- **Delegation.** A call through a view is one call of the underlying store, on
    the branch the view files it under. -/
theorem View.perform_delegates (view : View) (op : LedgerOp V) (now later : ℚ)
    {P : ∀ {R : Type}, (MemorySteps V → Except StoreError R × MemorySteps V) → Prop}
    (h : ∀ op' : LedgerOp V, op'.branchId = view.name op.branchId → P (op'.perform now later)) :
    P (view.perform op now later) := by
  -- The whole ledger passes the name on; a conversation's view files it first, method by method.
  cases view with
  | whole => exact h op rfl
  | conversation c =>
    cases op with
    | read b key => exact h (.read (filed c b) key) rfl
    | start b key token => exact h (.start (filed c b) key token) rfl
    | finishEffect b key value token => exact h (.finishEffect (filed c b) key value token) rfl
    | resolveEffect b key resolution workersStopped token =>
      exact h (.resolveEffect (filed c b) key resolution workersStopped token) rfl
    | writeControl b key value token => exact h (.writeControl (filed c b) key value token) rfl
    | forget b key token => exact h (.forget (filed c b) key token) rfl
    | acquire b owner ttl => exact h (.acquire (filed c b) owner ttl) rfl
    | release b owner => exact h (.release (filed c b) owner) rfl
    | enqueueInput b inputId value => exact h (.enqueueInput (filed c b) inputId value) rfl
    | listInputs b => exact h (.listInputs (filed c b)) rfl
    | claimInput b inputId token => exact h (.claimInput (filed c b) inputId token) rfl
    | admitInputs b inputIds token => exact h (.admitInputs (filed c b) inputIds token) rfl
    | discardInputs b inputIds token => exact h (.discardInputs (filed c b) inputIds token) rfl
    | commitTransition b transition token =>
      exact h (.commitTransition (filed c b) transition token) rfl

/-- Calls through a view read and write the branch they are filed under. -/
theorem View.perform_congr (view : View) (op : LedgerOp V) (now later : ℚ)
    (h : AgreeOn (view.name op.branchId) s t) :
    SameOn (view.name op.branchId) (view.perform op now later s)
      (view.perform op now later t) := by
  refine view.perform_delegates op now later
    (P := fun f => SameOn (view.name op.branchId) (f s) (f t)) fun op' hop => ?_
  rw [← hop] at h ⊢
  exact MemorySteps.perform_congr op' now later h

/-- Calls through a view leave every other filed branch alone. -/
theorem View.perform_frame (view : View) (op : LedgerOp V) (now later : ℚ)
    (s : MemorySteps V) {name : String} (h : view.name op.branchId ≠ name) :
    AgreeOn name s (view.perform op now later s).2 := by
  refine view.perform_delegates op now later (P := fun f => AgreeOn name s (f s).2)
    fun op' hop => ?_
  rw [← hop] at h
  exact MemorySteps.perform_frame op' now later s h

/-- Stores that agree everywhere but on one filed branch keep doing so. -/
theorem View.perform_agree (view : View) (op : LedgerOp V) (now later : ℚ) {hidden : String}
    (h : ∀ name ≠ hidden, AgreeOn name s t) :
    ∀ name ≠ hidden, AgreeOn name (view.perform op now later s).2
      (view.perform op now later t).2 := by
  intro name hname
  by_cases hb : view.name op.branchId = name
  · subst hb
    exact (view.perform_congr op now later (h _ hname)).2
  · exact ((view.perform_frame op now later s hb).symm.trans (h name hname)).trans
      (view.perform_frame op now later t hb)

end views

/-! ## Section 4: When two scopes are filed under the same name -/

theorem filedName_def (context : ExecutionContext) :
    context.filedName = match context.conversationId with
      | none => context.branchId
      | some c => c ++ "/" ++ context.branchId := by
  unfold ExecutionContext.filedName forExecution
  cases context.conversationId <;> rfl

/-- Two splits of one text at a separator: one left part continues the other. -/
theorem split_at_separator {c b d a : List Char} (h : c ++ '/' :: b = d ++ '/' :: a) :
    (c = d ∧ b = a) ∨ (∃ middle, d = c ++ '/' :: middle ∧ b = middle ++ '/' :: a) ∨
      (∃ middle, c = d ++ '/' :: middle ∧ a = middle ++ '/' :: b) := by
  rcases List.append_eq_append_iff.mp h with ⟨rest, hd, hb⟩ | ⟨rest, hc, ha⟩
  · cases rest with
    | nil => exact Or.inl ⟨by simpa using hd.symm, by simpa using hb⟩
    | cons x middle =>
      obtain ⟨rfl, rfl⟩ : '/' = x ∧ b = middle ++ '/' :: a := by simpa using hb
      exact Or.inr (Or.inl ⟨middle, hd, rfl⟩)
  · cases rest with
    | nil => exact Or.inl ⟨by simpa using hc, by simpa using ha.symm⟩
    | cons x middle =>
      obtain ⟨rfl, rfl⟩ : '/' = x ∧ a = middle ++ '/' :: b := by simpa using ha
      exact Or.inr (Or.inr ⟨middle, hc, rfl⟩)

/-- **The layout overlaps exactly where one scope's identifiers continue the other's.** -/
theorem filedName_eq_iff {p q : ExecutionContext} (hpq : p ≠ q) :
    p.filedName = q.filedName ↔ Continues p q ∨ Continues q p := by
  obtain ⟨b, c, hb⟩ := p
  obtain ⟨a, d, ha⟩ := q
  rw [filedName_def, filedName_def]
  cases c with
  | none =>
    cases d with
    | none =>
      have hne : b ≠ a := fun h => hpq (by subst h; rfl)
      simp [Continues, hne]
    | some d => simp [Continues]
  | some c =>
    cases d with
    | none => simp [Continues, eq_comm]
    | some d =>
      simp only [Continues]
      constructor
      · intro h
        have hchars : c.toList ++ '/' :: b.toList = d.toList ++ '/' :: a.toList := by
          simpa using congrArg String.toList h
        -- Equal names split at the same slash, or at a later one on either side.
        rcases split_at_separator hchars with ⟨hc, hb'⟩ | ⟨middle, hd, hb'⟩ | ⟨middle, hc, ha'⟩
        · obtain rfl := String.toList_inj.mp hc
          obtain rfl := String.toList_inj.mp hb'
          exact absurd rfl hpq
        · refine Or.inl ⟨String.ofList middle, ?_, ?_⟩
          · exact String.toList_inj.mp (by simpa using hd)
          · exact String.toList_inj.mp (by simpa using hb')
        · refine Or.inr ⟨String.ofList middle, ?_, ?_⟩
          · exact String.toList_inj.mp (by simpa using hc)
          · exact String.toList_inj.mp (by simpa using ha')
      · rintro (⟨middle, rfl, rfl⟩ | ⟨middle, rfl, rfl⟩)
        · simp [String.append_assoc]
        · simp [String.append_assoc]

/-- Identifiers without the separator never overlap. -/
theorem filedName_injective_of_no_separator {p q : ExecutionContext}
    (hp : '/' ∉ p.branchId.toList) (hq : '/' ∉ q.branchId.toList)
    (h : p.filedName = q.filedName) : p = q := by
  by_contra hpq
  have contains : ∀ x y : ExecutionContext, Continues x y → '/' ∈ x.branchId.toList := by
    intro x y hxy
    unfold Continues at hxy
    split at hxy
    · simp [hxy]
    · obtain ⟨middle, _, hx⟩ := hxy
      simp [hx]
    · exact hxy.elim
  rcases (filedName_eq_iff hpq).mp h with hc | hc
  · exact hp (contains p q hc)
  · exact hq (contains q p hc)

/-! ## Section 5: Isolation -/

section isolation

variable {V : Type} [BEq V]

/-- Scopes filed under different names are isolated: `p`'s calls touch only the
    branch hidden from `q`, and `q`'s calls read only another. -/
theorem isolated_of_filedName_ne {p q : ExecutionContext} (h : p.filedName ≠ q.filedName) :
    Isolated V p q := by
  intro calls c hc
  have hnames : ∀ d : ScopedCall V,
      (forExecution d.context).name d.op.branchId = d.context.filedName := fun d => by
    rw [d.onBranch, ExecutionContext.filedName]
  -- Without the other context's calls only its own name has changed.
  have hagree : ∀ name ≠ p.filedName,
      AgreeOn name ((scopedLedger V).after .init calls)
        ((scopedLedger V).after .init (calls.filter fun d => !decide (d.context = p))) := by
    refine (scopedLedger V).after_purge (fun d => decide (d.context = p))
      (E := fun s t => ∀ name ≠ p.filedName, AgreeOn name s t) ?_ ?_
      (fun name _ => AgreeOn.refl name _) calls
    · intro s t d hd hst name hname
      have hp : d.context = p := by simpa using hd
      have hne : (forExecution d.context).name d.op.branchId ≠ name := by
        rw [hnames, hp]
        exact Ne.symm hname
      exact ((forExecution d.context).perform_frame d.op d.now d.later s hne).symm.trans
        (hst name hname)
    · intro s t d _ hst
      exact (forExecution d.context).perform_agree d.op d.now d.later hst
  refine ((forExecution c.context).perform_congr c.op c.now c.later ?_).1
  rw [hnames, hc]
  exact hagree _ (Ne.symm h)

/-- Scopes filed under one name are not: `q` sees the step `p` started. -/
theorem not_isolated_of_filedName_eq {p q : ExecutionContext}
    (h : p.filedName = q.filedName) : ¬ Isolated V p q := by
  intro hiso
  have hstart := hiso [⟨p, .start p.branchId "tool:a" 0, 0, 0, rfl⟩]
    ⟨q, .start q.branchId "tool:a" 0, 0, 0, rfl⟩ rfl
  have hview : ∀ (r : ExecutionContext) (s : MemorySteps V),
      (forExecution r).perform (.start r.branchId "tool:a" 0) 0 0 s
        = s.start r.filedName "tool:a" 0 := by
    intro r s
    unfold ExecutionContext.filedName
    cases forExecution r <;> rfl
  simp only [reply, scopedLedger, after_cons, after_nil, hview, decide_true, Bool.not_true,
    List.filter_cons, List.filter_nil, Bool.false_eq_true, if_false, h] at hstart
  simp [MemorySteps.start, fenced, fence, entry, setEntry, MemorySteps.init, Dict.getD] at hstart
  exact Bool.false_ne_true (Except.ok.inj hstart)

/-- **Conversation isolation holds exactly where identifiers do not overlap.** Every
    read, listing, start, lease and fencing outcome through the view of `q` is
    independent of what is done through the view of `p`, for every history of
    calls, if and only if neither scope's identifiers continue the other's. -/
theorem isolated_iff_identifiers_apart (V : Type) [BEq V] (p q : ExecutionContext)
    (hpq : p ≠ q) : Isolated V p q ↔ ¬ (Continues p q ∨ Continues q p) := by
  rw [← filedName_eq_iff hpq]
  constructor
  · intro hiso heq
    exact not_isolated_of_filedName_eq heq hiso
  · intro hne
    exact isolated_of_filedName_ne hne

/-- Two conversations on one branch id are apart, as are a conversation and none. -/
theorem isolated_iff_identifiers_apart_same_branch :
    Isolated Nat { branchId := "b-1", conversationId := some "chat-a" }
      { branchId := "b-1", conversationId := some "chat-b" } := by
  refine (isolated_iff_identifiers_apart Nat _ _ (by decide)).mpr ?_
  rintro (⟨middle, h, _⟩ | ⟨middle, h, _⟩)
  · simpa using congrArg String.toList h
  · simpa using congrArg String.toList h

/-- Branch `eu/7` of conversation `acme` and branch `7` of conversation `acme/eu` are
    one branch of the store: the step one scope started, the other cannot start. -/
theorem acme_not_isolated_from_acme_eu :
    ¬ ∀ p q : ExecutionContext, p ≠ q → Isolated Nat p q := by
  intro h
  have hiso := h { branchId := "eu/7", conversationId := some "acme" }
    { branchId := "7", conversationId := some "acme/eu" } (by decide)
  exact not_isolated_of_filedName_eq (by decide) hiso

end isolation

end Semora
