import Mathlib.Data.List.Chain
import Mathlib.Data.List.Nodup

/-! # Walks along Parent Links

    Entries found under keys, each naming the key of its parent, with nothing
    said of what they name: links may dangle, or lead back. A walk follows them
    from a tip, passing over what is hidden, until there is no parent, nothing
    is found, or it was there before.

    * `Walks`: the loop, with the number of its turns. It has one result.
    * `Nearest`: the nearest ancestor that counts. What the walk returns goes
      from one such ancestor to the next.
    * `Walks.from_first`: begun at the first entry it returned, the walk returns
      the same entries. A walk that leads back among what it passed over before
      finds nothing there.

    Nothing here bounds the turns: whoever finds entries in a finite store
    does. -/

/-- Entries under keys, and their parents. -/
structure Links (κ α : Type) where
  look : κ → Option α
  parent : α → Option κ

namespace Links

variable {κ α : Type} (links : Links κ α)

/-- The loop from a tip: its turns and the entries it returns, the tip first. -/
inductive Walks (hidden : κ → α → Prop) : List κ → Option κ → Nat → List α → Prop
  | root (seen : List κ) : Walks hidden seen none 0 []
  | missing {seen : List κ} {k : κ} (hfound : links.look k = none) :
      Walks hidden seen (some k) 0 []
  | again {seen : List κ} {k : κ} (hseen : k ∈ seen) : Walks hidden seen (some k) 0 []
  | skip {seen : List κ} {k : κ} {e : α} {n : Nat} {rest : List α} (hfound : links.look k = some e)
      (hnew : k ∉ seen) (hhidden : hidden k e)
      (more : Walks hidden (k :: seen) (links.parent e) n rest) :
      Walks hidden seen (some k) (n + 1) rest
  | take {seen : List κ} {k : κ} {e : α} {n : Nat} {rest : List α} (hfound : links.look k = some e)
      (hnew : k ∉ seen) (hshown : ¬ hidden k e)
      (more : Walks hidden (k :: seen) (links.parent e) n rest) :
      Walks hidden seen (some k) (n + 1) (e :: rest)

/-- The nearest of a tip and its ancestors that counts. -/
inductive Nearest (counts : κ → α → Prop) : Option κ → α → Prop
  | here {k : κ} {e : α} (hfound : links.look k = some e) (hcounts : counts k e) :
      Nearest counts (some k) e
  | up {k : κ} {e e' : α} (hfound : links.look k = some e) (hpassed : ¬ counts k e)
      (above : Nearest counts (links.parent e) e') : Nearest counts (some k) e'

variable {links} {hidden : κ → α → Prop} {seen seen' : List κ} {tip : Option κ} {n : Nat}
  {found : List α}

/-- There is one nearest ancestor. -/
theorem Nearest.unique {counts : κ → α → Prop} {e e' : α} (h : links.Nearest counts tip e)
    (h' : links.Nearest counts tip e') : e = e' := by
  induction h with
  | here hfound hcounts =>
    cases h' with
    | here hfound' _ => exact Option.some.inj (hfound.symm.trans hfound')
    | up hfound' hpassed _ =>
      obtain rfl := Option.some.inj (hfound.symm.trans hfound')
      exact absurd hcounts hpassed
  | up hfound hpassed _ ih =>
    cases h' with
    | here hfound' hcounts =>
      obtain rfl := Option.some.inj (hfound.symm.trans hfound')
      exact absurd hcounts hpassed
    | up hfound' _ above =>
      obtain rfl := Option.some.inj (hfound.symm.trans hfound')
      exact ih above

namespace Walks

/-- The loop has one result. -/
theorem unique {n' : Nat} {found' : List α} (h : links.Walks hidden seen tip n found)
    (h' : links.Walks hidden seen tip n' found') : n' = n ∧ found' = found := by
  -- a case for each way the walk goes on at its tip; the other walk finds the same entry there, so
  -- it goes on the same way
  induction h generalizing n' found' with
  | root seen =>
    cases h'
    exact ⟨rfl, rfl⟩
  | missing hfound =>
    cases h' with
    | missing _ => exact ⟨rfl, rfl⟩
    | again _ => exact ⟨rfl, rfl⟩
    | skip hfound' _ _ _ =>
      rw [hfound] at hfound'
      cases hfound'
    | take hfound' _ _ _ =>
      rw [hfound] at hfound'
      cases hfound'
  | again hseen =>
    cases h' with
    | missing _ => exact ⟨rfl, rfl⟩
    | again _ => exact ⟨rfl, rfl⟩
    | skip _ hnew _ _ => exact absurd hseen hnew
    | take _ hnew _ _ => exact absurd hseen hnew
  | skip hfound hnew hhidden _ ih =>
    cases h' with
    | missing hfound' =>
      rw [hfound] at hfound'
      cases hfound'
    | again hseen => exact absurd hseen hnew
    | skip hfound' _ _ more =>
      obtain rfl := Option.some.inj (hfound.symm.trans hfound')
      obtain ⟨rfl, rfl⟩ := ih more
      exact ⟨rfl, rfl⟩
    | take hfound' _ hshown _ =>
      obtain rfl := Option.some.inj (hfound.symm.trans hfound')
      exact absurd hhidden hshown
  | take hfound hnew hshown _ ih =>
    cases h' with
    | missing hfound' =>
      rw [hfound] at hfound'
      cases hfound'
    | again hseen => exact absurd hseen hnew
    | skip hfound' _ hhidden _ =>
      obtain rfl := Option.some.inj (hfound.symm.trans hfound')
      exact absurd hhidden hshown
    | take hfound' _ _ more =>
      obtain rfl := Option.some.inj (hfound.symm.trans hfound')
      obtain ⟨rfl, rfl⟩ := ih more
      exact ⟨rfl, rfl⟩

/-- Entries are returned under keys that were not seen before, each once. -/
theorem keys_nodup {key : α → κ} (hkey : ∀ k e, links.look k = some e → key e = k)
    (h : links.Walks hidden seen tip n found) :
    (found.map key).Nodup ∧ ∀ e ∈ found, key e ∉ seen := by
  induction h with
  | root seen => exact ⟨List.nodup_nil, fun _ he => absurd he List.not_mem_nil⟩
  | missing _ => exact ⟨List.nodup_nil, fun _ he => absurd he List.not_mem_nil⟩
  | again _ => exact ⟨List.nodup_nil, fun _ he => absurd he List.not_mem_nil⟩
  | skip _ _ _ _ ih =>
    exact ⟨ih.1, fun e he => fun hseen => ih.2 e he (List.mem_cons_of_mem _ hseen)⟩
  | @take seen k e n rest hfound hnew _ _ ih =>
    rw [List.map_cons, List.nodup_cons, hkey k e hfound]
    refine ⟨⟨fun hmem => ?_, ih.1⟩, fun other hother => ?_⟩
    · obtain ⟨other, hother, heq⟩ := List.mem_map.mp hmem
      exact ih.2 other hother (heq ▸ List.mem_cons_self)
    · rcases List.mem_cons.mp hother with rfl | hother
      · rwa [hkey k _ hfound]
      · exact fun hseen => ih.2 other hother (List.mem_cons_of_mem _ hseen)

/-- The first entry is the nearest that is not hidden. -/
theorem nearest {e : α} {rest : List α} (h : links.Walks hidden seen tip n (e :: rest)) :
    links.Nearest (fun k e => ¬ hidden k e) tip e := by
  generalize hfound : e :: rest = found at h
  induction h with
  | root seen => cases hfound
  | missing _ => cases hfound
  | again _ => cases hfound
  | skip hlook _ hhidden _ ih => exact .up hlook (not_not.mpr hhidden) (ih hfound)
  | take hlook _ hshown _ _ =>
    obtain ⟨rfl, _⟩ := List.cons.inj hfound
    exact .here hlook hshown

/-- **From one entry to the next**: it is the nearest ancestor that is not hidden. -/
theorem isChain (h : links.Walks hidden seen tip n found) :
    found.IsChain fun e above =>
      links.Nearest (fun k e => ¬ hidden k e) (links.parent e) above := by
  induction h with
  | root seen => exact .nil
  | missing _ => exact .nil
  | again _ => exact .nil
  | skip _ _ _ _ ih => exact ih
  | @take seen k e n rest _ _ _ more ih =>
    cases rest with
    | nil => exact .singleton e
    | cons above rest => exact .cons_cons more.nearest ih

/-- Passing over more is leaving it out of what is returned. -/
theorem filter {p : α → Bool} (h : links.Walks hidden seen tip n found) :
    links.Walks (fun k e => hidden k e ∨ p e = false) seen tip n (found.filter p) := by
  induction h with
  | root seen => exact .root seen
  | missing hfound => exact .missing hfound
  | again hseen => exact .again hseen
  | skip hfound hnew hhidden _ ih => exact .skip hfound hnew (Or.inl hhidden) ih
  | @take seen k e n rest hfound hnew hshown _ ih =>
    cases hp : p e with
    | true =>
      rw [List.filter_cons_of_pos hp]
      exact .take hfound hnew (fun h => h.elim hshown (by rw [hp]; exact Bool.noConfusion)) ih
    | false =>
      rw [List.filter_cons_of_neg (by rw [hp]; exact Bool.noConfusion)]
      exact .skip hfound hnew (Or.inr hp) ih

end Walks

/-! ## Leading back -/

/-- Hidden entries, one the parent of the other, lead from a key to `goal`. -/
inductive Leads (links : Links κ α) (hidden : κ → α → Prop) (goal : Option κ) : κ → Prop
  | last {k : κ} {e : α} (hfound : links.look k = some e) (hhidden : hidden k e)
      (hparent : links.parent e = goal) : Leads links hidden goal k
  | step {k k' : κ} {e : α} (hfound : links.look k = some e) (hhidden : hidden k e)
      (hparent : links.parent e = some k') (more : Leads links hidden goal k') :
      Leads links hidden goal k

/-- One more hidden entry. -/
theorem Leads.concat {k goal : κ} {e : α} (h : Leads links hidden (some goal) k)
    (hfound : links.look goal = some e) (hhidden : hidden goal e) :
    Leads links hidden (links.parent e) k := by
  induction h with
  | last hlook hhid hparent => exact .step hlook hhid hparent (.last hfound hhidden rfl)
  | step hlook hhid hparent _ ih => exact .step hlook hhid hparent ih

variable [DecidableEq κ]

/-- What leads back to where the walk was returns nothing. -/
theorem Leads.walks_nil {k goal : κ} (h : Leads links hidden (some goal) k) (hgoal : goal ∈ seen) :
    ∃ n, links.Walks hidden seen (some k) n [] := by
  induction h generalizing seen with
  | @last k e hfound hhidden hparent =>
    by_cases hseen : k ∈ seen
    · exact ⟨0, .again hseen⟩
    · refine ⟨1, .skip hfound hseen hhidden ?_⟩
      rw [hparent]
      exact .again (List.mem_cons_of_mem _ hgoal)
  | @step k k' e hfound hhidden hparent _ ih =>
    by_cases hseen : k ∈ seen
    · exact ⟨0, .again hseen⟩
    · obtain ⟨n, hrest⟩ := ih (List.mem_cons_of_mem k hgoal)
      rw [← hparent] at hrest
      exact ⟨n + 1, .skip hfound hseen hhidden hrest⟩

/-- A walk need not remember hidden entries that lead back to where it was. -/
theorem Walks.forget {goal : κ} (h : links.Walks hidden seen tip n found)
    (hsub : seen' ⊆ seen) (hgoal : goal ∈ seen')
    (hleads : ∀ k ∈ seen, k ∉ seen' → Leads links hidden (some goal) k) :
    ∃ n, links.Walks hidden seen' tip n found := by
  induction h generalizing seen' with
  | root seen => exact ⟨0, .root _⟩
  | missing hfound => exact ⟨0, .missing hfound⟩
  | @again seen k hseen =>
    by_cases hseen' : k ∈ seen'
    · exact ⟨0, .again hseen'⟩
    · exact (hleads k hseen hseen').walks_nil hgoal
  | @skip seen k e n rest hfound hnew hhidden _ ih =>
    obtain ⟨n, hrest⟩ := ih (List.cons_subset_cons k hsub)
      (List.mem_cons_of_mem k hgoal) fun other hother hnot => by
        rw [List.mem_cons, not_or] at hnot
        exact hleads other (List.mem_of_ne_of_mem hnot.1 hother) hnot.2
    exact ⟨n + 1, .skip hfound (fun hmem => hnew (hsub hmem)) hhidden hrest⟩
  | @take seen k e n rest hfound hnew hshown _ ih =>
    obtain ⟨n, hrest⟩ := ih (List.cons_subset_cons k hsub)
      (List.mem_cons_of_mem k hgoal) fun other hother hnot => by
        rw [List.mem_cons, not_or] at hnot
        exact hleads other (List.mem_of_ne_of_mem hnot.1 hother) hnot.2
    exact ⟨n + 1, .take hfound (fun hmem => hnew (hsub hmem)) hshown hrest⟩

/-- **Begun at the first entry** it returned, a walk returns the same entries. -/
theorem Walks.from_first {e : α} {rest : List α} (h : links.Walks hidden [] tip n (e :: rest)) :
    ∃ k n', links.look k = some e ∧ links.Walks hidden [] (some k) n' (e :: rest) := by
  -- what was passed over so far leads to the tip
  have hwalk : ∀ {seen tip n found}, links.Walks hidden seen tip n found → found = e :: rest →
      (∀ k ∈ seen, Leads links hidden tip k) →
      ∃ k n', links.look k = some e ∧ links.Walks hidden [] (some k) n' (e :: rest) := by
    intro seen tip n found h
    induction h with
    | root seen => exact fun heq _ => by cases heq
    | missing _ => exact fun heq _ => by cases heq
    | again _ => exact fun heq _ => by cases heq
    | @skip seen k e' n rest' hfound hnew hhidden _ ih =>
      intro heq hleads
      refine ih heq fun other hother => ?_
      rcases List.mem_cons.mp hother with rfl | hother
      · exact .last hfound hhidden rfl
      · exact (hleads other hother).concat hfound hhidden
    | @take seen k e' n rest' hfound hnew hshown more ih =>
      intro heq hleads
      obtain ⟨rfl, rfl⟩ := List.cons.inj heq
      have honly : [k] ⊆ k :: seen := List.cons_subset_cons k (List.nil_subset seen)
      obtain ⟨n', hmore⟩ := more.forget honly (List.mem_singleton_self k)
        fun other hother hnot => hleads other
          (List.mem_of_ne_of_mem (fun heq => hnot (List.mem_singleton.mpr heq)) hother)
      exact ⟨k, n' + 1, hfound, .take hfound (by simp) hshown hmore⟩
  exact hwalk h rfl (by simp)

end Links
