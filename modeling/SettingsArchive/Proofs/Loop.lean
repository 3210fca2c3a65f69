/-!
# Loops

A loop goes in rounds.  A round ends the loop with an answer, or it leads to the state
that the next round starts from.  Nothing in this says that a loop ends, so
`Round.answer?` goes through a bounded number of rounds, and a loop ends where there is
an answer from some number of rounds on.

`Round.exists_answer` is the rule for loops.  What every round keeps says what the
answer is, and a number that every round lowers says how many rounds are enough.
-/

namespace SettingsArchive

/-- What a round of a loop comes to. -/
inductive Round (State Answer : Type) where
  | done (answer : Answer)
  | next (state : State)

namespace Round

variable {State Answer : Type}

/-- The answer of a loop, if it ends within so many rounds. -/
def answer? (round : State → Round State Answer) : Nat → State → Option Answer
  | 0, _ => none
  | rounds + 1, s =>
    match round s with
    | .done answer => some answer
    | .next s' => answer? round rounds s'

/-- What is asked of an answer if the round ends the loop, and of a state if it does
not. -/
def Meets (Post : Answer → Prop) (Next : State → Prop) : Round State Answer → Prop
  | .done answer => Post answer
  | .next s => Next s

theorem Meets.and {Post Post' : Answer → Prop} {Next Next' : State → Prop}
    {r : Round State Answer} (h : r.Meets Post Next) (h' : r.Meets Post' Next') :
    r.Meets (fun answer => Post answer ∧ Post' answer) fun s => Next s ∧ Next' s := by
  cases r with
  | done answer => exact ⟨h, h'⟩
  | next s => exact ⟨h, h'⟩

variable {round : State → Round State Answer}

theorem answer?_of_done {s : State} {answer : Answer} (h : round s = .done answer)
    (rounds : Nat) : answer? round (rounds + 1) s = some answer := by
  rw [answer?, h]

theorem answer?_of_next {s s' : State} (h : round s = .next s') (rounds : Nat) :
    answer? round (rounds + 1) s = answer? round rounds s' := by
  rw [answer?, h]

/-- A loop ends if every round keeps an invariant and lowers a number.  The number is
how many rounds come before the last one at most, and the answer is one that the
invariant allows. -/
theorem exists_answer {Inv : State → Prop} {Post : Answer → Prop}
    {left : State → Nat}
    (hround : ∀ s, Inv s →
      (round s).Meets Post fun s' => Inv s' ∧ left s' < left s)
    {s : State} (hs : Inv s) :
    ∃ answer, Post answer ∧
      ∀ rounds, left s < rounds → answer? round rounds s = some answer := by
  induction hn : left s using Nat.strongRecOn generalizing s with
  | ind n ih =>
    have hmeets := hround s hs
    cases hr : round s with
    | done answer =>
      rw [hr] at hmeets
      refine ⟨answer, hmeets, fun rounds hlt => ?_⟩
      obtain ⟨k, rfl⟩ : ∃ k, rounds = k + 1 := ⟨rounds - 1, by omega⟩
      exact answer?_of_done hr k
    | next s' =>
      rw [hr] at hmeets
      obtain ⟨hinv, hlower⟩ := hmeets
      obtain ⟨answer, hpost, hends⟩ := ih (left s') (hn ▸ hlower) hinv rfl
      refine ⟨answer, hpost, fun rounds hlt => ?_⟩
      obtain ⟨k, rfl⟩ : ∃ k, rounds = k + 1 := ⟨rounds - 1, by omega⟩
      rw [answer?_of_next hr]
      exact hends k (by omega)

end Round

end SettingsArchive
