import Mathlib.Data.List.Forall2
import Mathlib.Order.Bounds.Defs
import MarkupPath.XPath.Step

/-!
# Matched steps

The steps of a path lead along a chain of elements as far as every step accepts
the element at its place. A longer chain is matched further only if all of the
shorter one was matched, so a search that meets the elements one by one needs to
remember no more than how many steps have been matched.
-/

namespace MarkupPath.XPath

variable {Member : Type}

/-- How many steps lead along a chain before one of them does not accept its element. -/
def matchedLength (accepts : Step → Member → Bool) : List Step → List Member → Nat
  | [], _ => 0
  | _, [] => 0
  | step :: steps, member :: chain =>
      if accepts step member then matchedLength accepts steps chain + 1 else 0

/-- The whole chain is matched, and the next step accepts one more element. -/
structure Extends (accepts : Step → Member → Bool) (steps : List Step) (chain : List Member)
    (member : Member) : Prop where
  matchedLength_eq : matchedLength accepts steps chain = chain.length
  next : ∃ step, steps[chain.length]? = some step ∧ accepts step member = true

variable {accepts : Step → Member → Bool} {steps : List Step} {chain : List Member}
  {member : Member}

@[simp]
theorem matchedLength_nil (steps : List Step) : matchedLength accepts steps [] = 0 := by
  cases steps <;> rfl

theorem extends_nil_steps : ¬Extends accepts [] chain member := by
  rintro ⟨-, step, found, -⟩
  simp at found

theorem extends_nil {step : Step} {steps : List Step} :
    Extends accepts (step :: steps) [] member ↔ accepts step member = true := by
  constructor
  · rintro ⟨-, next, found, accepted⟩
    simp only [List.length_nil, List.getElem?_cons_zero, Option.some.injEq] at found
    rwa [found]
  · intro accepted
    exact ⟨by simp, step, rfl, accepted⟩

theorem extends_cons {step : Step} {steps : List Step} {first : Member} :
    Extends accepts (step :: steps) (first :: chain) member ↔
      accepts step first = true ∧ Extends accepts steps chain member := by
  constructor
  · rintro ⟨all, next, found, accepted⟩
    rw [matchedLength] at all
    split at all
    · next first =>
      rw [List.length_cons, Nat.add_right_cancel_iff] at all
      exact ⟨first, all, next, by simpa using found, accepted⟩
    · exact nomatch all
  · rintro ⟨first, all, next, found, accepted⟩
    exact ⟨by simp [matchedLength, first, all], next, by simpa using found, accepted⟩

theorem matchedLength_concat_of_extends (more : Extends accepts steps chain member) :
    matchedLength accepts steps (chain ++ [member]) = matchedLength accepts steps chain + 1 := by
  induction chain generalizing steps with
  | nil =>
      cases steps with
      | nil => exact absurd more extends_nil_steps
      | cons step steps => simp [matchedLength, extends_nil.mp more]
  | cons first chain ih =>
      cases steps with
      | nil => exact absurd more extends_nil_steps
      | cons step steps =>
          rcases extends_cons.mp more with ⟨accepted, more⟩
          simp [matchedLength, accepted, ih more]

theorem matchedLength_concat_of_not_extends (noMore : ¬Extends accepts steps chain member) :
    matchedLength accepts steps (chain ++ [member]) = matchedLength accepts steps chain := by
  induction chain generalizing steps with
  | nil =>
      cases steps with
      | nil => rfl
      | cons step steps =>
          rw [extends_nil] at noMore
          simp [matchedLength, noMore]
  | cons first chain ih =>
      cases steps with
      | nil => rfl
      | cons step steps =>
          rw [List.cons_append, matchedLength, matchedLength]
          split
          · next accepted =>
            rw [extends_cons, not_and] at noMore
            rw [ih (noMore accepted)]
          · rfl

/-- What is matched of a chain is matched of its beginning as far as this goes. -/
theorem matchedLength_eq_min (steps : List Step) (chain more : List Member) :
    matchedLength accepts steps chain =
      min (matchedLength accepts steps (chain ++ more)) chain.length := by
  induction chain generalizing steps with
  | nil => simp
  | cons member chain ih =>
      cases steps with
      | nil => exact (Nat.zero_min _).symm
      | cons step steps =>
          rw [List.cons_append, matchedLength, matchedLength, List.length_cons]
          split
          · rw [ih, Nat.add_min_add_right]
          · exact (Nat.zero_min _).symm

theorem matchedLength_le (accepts : Step → Member → Bool) (steps : List Step)
    (chain : List Member) : matchedLength accepts steps chain ≤ chain.length := by
  rw [matchedLength_eq_min steps chain []]
  exact Nat.min_le_right _ _

/-- Each of the first elements of a chain, this many, is accepted by the step at its place. -/
def AcceptsFirst (accepts : Step → Member → Bool) (steps : List Step) (chain : List Member)
    (count : Nat) : Prop :=
  ∀ place < count, ∃ step member, steps[place]? = some step ∧ chain[place]? = some member ∧
    accepts step member = true

theorem acceptsFirst_zero : AcceptsFirst accepts steps chain 0 :=
  fun _ impossible => nomatch impossible

theorem not_acceptsFirst_succ_nil {count : Nat} : ¬AcceptsFirst accepts steps [] (count + 1) := by
  intro accepted
  rcases accepted 0 (Nat.succ_pos count) with ⟨_, member, -, found, -⟩
  exact nomatch found

theorem not_acceptsFirst_succ_nil_steps {count : Nat} :
    ¬AcceptsFirst accepts [] chain (count + 1) := by
  intro accepted
  rcases accepted 0 (Nat.succ_pos count) with ⟨step, _, found, -, -⟩
  exact nomatch found

theorem acceptsFirst_succ_cons {step : Step} {steps : List Step} {first : Member} {count : Nat} :
    AcceptsFirst accepts (step :: steps) (first :: chain) (count + 1) ↔
      accepts step first = true ∧ AcceptsFirst accepts steps chain count := by
  rw [AcceptsFirst, Nat.forall_lt_succ_left]
  simp [AcceptsFirst]

theorem le_matchedLength_iff {count : Nat} :
    count ≤ matchedLength accepts steps chain ↔ AcceptsFirst accepts steps chain count := by
  induction chain generalizing steps count with
  | nil =>
      cases count with
      | zero => simp [acceptsFirst_zero]
      | succ count => simp [not_acceptsFirst_succ_nil]
  | cons first chain ih =>
      cases count with
      | zero => simp [acceptsFirst_zero]
      | succ count =>
          cases steps with
          | nil => simp [matchedLength, not_acceptsFirst_succ_nil_steps]
          | cons step steps =>
              rw [acceptsFirst_succ_cons, matchedLength, ← ih]
              by_cases accepted : accepts step first = true
              · simp [accepted]
              · simp [accepted]

/-- The steps match as much of a chain as they can accept from its beginning without a gap. -/
theorem isGreatest_matchedLength (accepts : Step → Member → Bool) (steps : List Step)
    (chain : List Member) :
    IsGreatest {count | AcceptsFirst accepts steps chain count}
      (matchedLength accepts steps chain) := by
  constructor
  · exact le_matchedLength_iff.mp (Nat.le_refl _)
  · intro count accepted
    exact le_matchedLength_iff.mpr accepted

/-- All of the steps lead to the last element of a chain. -/
theorem forall₂_concat_iff :
    List.Forall₂ (fun step member => accepts step member = true) steps (chain ++ [member]) ↔
      Extends accepts steps chain member ∧ chain.length + 1 = steps.length := by
  induction chain generalizing steps with
  | nil =>
      cases steps with
      | nil => simp [extends_nil_steps]
      | cons step steps =>
          rw [List.nil_append, List.forall₂_cons, List.forall₂_nil_right_iff, extends_nil]
          simp
  | cons first chain ih =>
      cases steps with
      | nil => simp [extends_nil_steps]
      | cons step steps =>
          rw [List.cons_append, List.forall₂_cons, ih, extends_cons]
          simp [and_assoc]

theorem forall₂_iff_of_mem {First Second : Type} {related alike : First → Second → Prop}
    {goals : List First} {ones : List Second}
    (same : ∀ goal ∈ goals, ∀ one ∈ ones, related goal one ↔ alike goal one) :
    List.Forall₂ related goals ones ↔ List.Forall₂ alike goals ones := by
  induction goals generalizing ones with
  | nil => rw [List.forall₂_nil_left_iff, List.forall₂_nil_left_iff]
  | cons goal goals ih =>
      cases ones with
      | nil => rw [List.forall₂_nil_right_iff, List.forall₂_nil_right_iff]
      | cons one ones =>
          rw [List.forall₂_cons, List.forall₂_cons,
            same goal List.mem_cons_self one List.mem_cons_self, ih]
          intro further furtherMem later laterMem
          exact same further (List.mem_cons_of_mem _ furtherMem) later
            (List.mem_cons_of_mem _ laterMem)

theorem forall₂_of_common {First Second : Type} {related : First → Second → Prop}
    {alike : Second → Second → Prop}
    (unique : ∀ goal one other, related goal one → related goal other → alike one other)
    {goals : List First} {ones others : List Second} (left : List.Forall₂ related goals ones)
    (right : List.Forall₂ related goals others) : List.Forall₂ alike ones others := by
  induction left generalizing others with
  | nil =>
      cases right with
      | nil => exact List.Forall₂.nil
  | cons first rest ih =>
      cases right with
      | cons other more => exact List.Forall₂.cons (unique _ _ _ first other) (ih more)

end MarkupPath.XPath
