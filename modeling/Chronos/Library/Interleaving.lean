import Chronos.Library.CallMachine
import Mathlib.Logic.Relation

namespace Chronos.Library.Interleaving

open Chronos.Library.CallProgram
open Chronos.Library.CallMachine

variable {C : Type} {Answer : C → Type} {σ δ τ α : Type}

structure Thread (C : Type) (Answer : C → Type) (τ α : Type) where
  task : τ
  rest : Program C Answer α

structure Pool (C : Type) (Answer : C → Type) (σ τ α : Type) where
  state : σ
  threads : List (Thread C Answer τ α)

/-- How tasks are started, run and finished.  `start` gives the state in which a
task starts, if it can start at all. -/
structure System (C : Type) (Answer : C → Type) (σ δ τ α : Type) where
  machine : Machine C Answer σ δ
  body : τ → Program C Answer α
  start : Pool C Answer σ τ α → τ → Option σ
  finish : τ → α → δ → σ → σ

inductive Label (C τ α : Type)
  | started (task : τ)
  | made (task : τ) (c : C)
  | finished (task : τ) (value : α)

/-- One step of any one thread; every call is atomic. -/
inductive System.Step (S : System C Answer σ δ τ α) :
    Pool C Answer σ τ α → Label C τ α → Pool C Answer σ τ α → Prop
  | start {p : Pool C Answer σ τ α} {task : τ} {s : σ} (hstart : S.start p task = some s) :
      S.Step p (.started task) ⟨s, p.threads ++ [⟨task, S.body task⟩]⟩
  | advance {s : σ} {left right : List (Thread C Answer τ α)} {task : τ} {c : C}
      {next : Answer c → Program C Answer α} {d : δ} (hallowed : S.machine.Allowed s c d) :
      S.Step ⟨s, left ++ ⟨task, .call c next⟩ :: right⟩ (.made task c)
        ⟨(S.machine.step c s d).2,
          left ++ ⟨task, next (S.machine.step c s d).1⟩ :: right⟩
  | finish {s : σ} {left right : List (Thread C Answer τ α)} {task : τ} {value : α}
      (d : δ) :
      S.Step ⟨s, left ++ ⟨task, .ret value⟩ :: right⟩ (.finished task value)
        ⟨S.finish task value d s, left ++ right⟩

/-- Any number of steps, each of them taken where `P` allows it. -/
def System.Reaches (S : System C Answer σ δ τ α)
    (P : Pool C Answer σ τ α → Label C τ α → Prop) :
    Pool C Answer σ τ α → Pool C Answer σ τ α → Prop :=
  Relation.ReflTransGen fun p q => ∃ label, P p label ∧ S.Step p label q

/-- The run rule: what every allowed step keeps holds wherever a run leads. -/
theorem reaches_invariant {S : System C Answer σ δ τ α}
    {P : Pool C Answer σ τ α → Label C τ α → Prop} {I : Pool C Answer σ τ α → Prop}
    (hstep : ∀ p label q, I p → P p label → S.Step p label q → I q)
    {p q : Pool C Answer σ τ α} (hreach : S.Reaches P p q) (hp : I p) : I q := by
  induction hreach with
  | refl => exact hp
  | tail _ hlast ih =>
      obtain ⟨label, hP, hlast⟩ := hlast
      exact hstep _ label _ ih hP hlast

theorem forall_threads_step {S : System C Answer σ δ τ α}
    {Φ : Thread C Answer τ α → Prop}
    (hcall : ∀ task c next answer, Φ ⟨task, .call c next⟩ → Φ ⟨task, next answer⟩)
    {p q : Pool C Answer σ τ α} {label : Label C τ α} (hstep : S.Step p label q)
    (hbody : ∀ task, label = .started task → Φ ⟨task, S.body task⟩)
    (hp : ∀ thread ∈ p.threads, Φ thread) : ∀ thread ∈ q.threads, Φ thread := by
  cases hstep with
  | start hstart =>
      intro thread hthread
      rcases List.mem_append.mp hthread with hold | hnew
      · exact hp thread hold
      · rw [List.mem_singleton.mp hnew]
        exact hbody _ rfl
  | advance hallowed =>
      simp only [List.mem_append, List.mem_cons] at hp ⊢
      rintro thread (hleft | rfl | hright)
      · exact hp thread (Or.inl hleft)
      · exact hcall _ _ _ _ (hp _ (Or.inr (Or.inl rfl)))
      · exact hp thread (Or.inr (Or.inr hright))
  | finish d =>
      simp only [List.mem_append, List.mem_cons] at hp ⊢
      rintro thread (hleft | hright)
      · exact hp thread (Or.inl hleft)
      · exact hp thread (Or.inr (Or.inr hright))

/-- A scheduling decision: which task to start, or which thread moves on. -/
inductive Move (τ δ : Type)
  | start (task : τ)
  | advance (index : Nat) (d : δ)
  | finish (index : Nat) (d : δ)

section Executable

variable (S : System C Answer σ δ τ α) [∀ s c d, Decidable (S.machine.Allowed s c d)]

def System.move (p : Pool C Answer σ τ α) :
    Move τ δ → Option (Label C τ α × Pool C Answer σ τ α)
  | .start task =>
      (S.start p task).map fun s => (.started task, ⟨s, p.threads ++ [⟨task, S.body task⟩]⟩)
  | .advance index d =>
      match p.threads.drop index with
      | ⟨task, .call c next⟩ :: right =>
          if S.machine.Allowed p.state c d then
            some (.made task c, ⟨(S.machine.step c p.state d).2,
              p.threads.take index ++ ⟨task, next (S.machine.step c p.state d).1⟩ :: right⟩)
          else none
      | _ => none
  | .finish index d =>
      match p.threads.drop index with
      | ⟨task, .ret value⟩ :: right =>
          some (.finished task value,
            ⟨S.finish task value d p.state, p.threads.take index ++ right⟩)
      | _ => none

def System.follow (check : Pool C Answer σ τ α → Label C τ α → Bool) :
    Pool C Answer σ τ α → List (Move τ δ) → Option (Pool C Answer σ τ α)
  | p, [] => some p
  | p, m :: moves =>
      match S.move p m with
      | none => none
      | some (label, q) => if check p label then System.follow check q moves else none

variable {S}

theorem step_of_move {p q : Pool C Answer σ τ α} {m : Move τ δ} {label : Label C τ α}
    (hmove : S.move p m = some (label, q)) : S.Step p label q := by
  obtain ⟨s, threads⟩ := p
  cases m with
  | start task =>
      simp only [System.move, Option.map_eq_some_iff, Prod.mk.injEq] at hmove
      obtain ⟨s', hstart, rfl, rfl⟩ := hmove
      exact .start hstart
  | advance index d =>
      simp only [System.move] at hmove
      split at hmove
      · rename_i task c next right hdrop
        split at hmove
        · rename_i hallowed
          simp only [Option.some.injEq, Prod.mk.injEq] at hmove
          obtain ⟨rfl, rfl⟩ := hmove
          have hthreads := List.take_append_drop index threads
          rw [hdrop] at hthreads
          conv => arg 2; rw [← hthreads]
          exact .advance hallowed
        · simp at hmove
      · simp at hmove
  | finish index d =>
      simp only [System.move] at hmove
      split at hmove
      · rename_i task value right hdrop
        simp only [Option.some.injEq, Prod.mk.injEq] at hmove
        obtain ⟨rfl, rfl⟩ := hmove
        have hthreads := List.take_append_drop index threads
        rw [hdrop] at hthreads
        conv => arg 2; rw [← hthreads]
        exact .finish d
      · simp at hmove

theorem reaches_of_follow {P : Pool C Answer σ τ α → Label C τ α → Prop}
    {check : Pool C Answer σ τ α → Label C τ α → Bool}
    (hcheck : ∀ p label, check p label = true → P p label)
    {p q : Pool C Answer σ τ α} {moves : List (Move τ δ)}
    (hfollow : S.follow check p moves = some q) : S.Reaches P p q := by
  induction moves generalizing p with
  | nil =>
      obtain rfl := Option.some.inj hfollow
      exact Relation.ReflTransGen.refl
  | cons m moves ih =>
      simp only [System.follow] at hfollow
      split at hfollow
      · simp at hfollow
      · rename_i label next hmove
        split at hfollow
        · rename_i hok
          exact Relation.ReflTransGen.head ⟨label, hcheck p label hok, step_of_move hmove⟩
            (ih hfollow)
        · simp at hfollow

theorem step_of_get {p : Pool C Answer σ τ α} {m : Move τ δ} (hm : (S.move p m).isSome) :
    S.Step p ((S.move p m).get hm).1 ((S.move p m).get hm).2 := by
  apply step_of_move
  exact (Option.some_get hm).symm

theorem reaches_of_get {check : Pool C Answer σ τ α → Label C τ α → Bool}
    {p : Pool C Answer σ τ α} {moves : List (Move τ δ)}
    (hmoves : (S.follow check p moves).isSome) :
    S.Reaches (fun p label => check p label) p ((S.follow check p moves).get hmoves) :=
  reaches_of_follow (fun _ _ hcheck => hcheck) (Option.some_get hmoves).symm

end Executable

section Family

variable {ι : Type} [DecidableEq ι]

/-- `P` holds of every call of the schedule, where it is made. -/
def Throughout (M : Machine C Answer σ δ) (P : (ι → Program C Answer α) → σ → ι → δ → Prop)
    (programs : ι → Program C Answer α) (s : σ) : List (ι × δ) → Prop
  | [] => True
  | (i, d) :: schedule =>
      P programs s i d ∧
        match programs i with
        | .ret _ => True
        | .call c next =>
            Throughout M P (Function.update programs i (next (M.step c s d).1)) (M.step c s d).2
              schedule

instance decidableThroughout (M : Machine C Answer σ δ)
    (P : (ι → Program C Answer α) → σ → ι → δ → Prop)
    [∀ programs s i d, Decidable (P programs s i d)] :
    (programs : ι → Program C Answer α) → (s : σ) → (schedule : List (ι × δ)) →
      Decidable (Throughout M P programs s schedule)
  | _, _, [] => inferInstanceAs (Decidable True)
  | programs, s, (i, d) :: schedule =>
      have : Decidable (match programs i with
          | .ret _ => True
          | .call c next => Throughout M P
              (Function.update programs i (next (M.step c s d).1)) (M.step c s d).2 schedule) :=
        match programs i with
        | .ret _ => inferInstanceAs (Decidable True)
        | .call c next => decidableThroughout M P
            (Function.update programs i (next (M.step c s d).1)) (M.step c s d).2 schedule
      inferInstanceAs (Decidable (P programs s i d ∧ _))

theorem throughout_call {M : Machine C Answer σ δ}
    {P : (ι → Program C Answer α) → σ → ι → δ → Prop} {programs : ι → Program C Answer α}
    {s : σ} {i : ι} {d : δ} {c : C} {next : Answer c → Program C Answer α}
    (hcall : programs i = .call c next) (schedule : List (ι × δ)) :
    Throughout M P programs s ((i, d) :: schedule) ↔
      P programs s i d ∧ Throughout M P (Function.update programs i (next (M.step c s d).1))
        (M.step c s d).2 schedule := by
  rw [Throughout]
  apply and_congr_right'
  rw [hcall]

/-- Run a family of programs by a schedule that says who makes the next call; `none`
if that program has returned or the draw is not allowed. -/
def interleave (M : Machine C Answer σ δ) [∀ s c d, Decidable (M.Allowed s c d)]
    (programs : ι → Program C Answer α) (s : σ) :
    List (ι × δ) → Option ((ι → Program C Answer α) × σ)
  | [] => some (programs, s)
  | (i, d) :: schedule =>
      match programs i with
      | .ret _ => none
      | .call c next =>
          if M.Allowed s c d then
            interleave M (Function.update programs i (next (M.step c s d).1)) (M.step c s d).2
              schedule
          else none

variable {M : Machine C Answer σ δ} [∀ s c d, Decidable (M.Allowed s c d)]

theorem interleave_cons {programs programs' : ι → Program C Answer α} {s s' : σ} {i : ι} {d : δ}
    {schedule : List (ι × δ)}
    (hrun : interleave M programs s ((i, d) :: schedule) = some (programs', s')) :
    ∃ c next, programs i = .call c next ∧ M.Allowed s c d ∧
      interleave M (Function.update programs i (next (M.step c s d).1)) (M.step c s d).2
        schedule = some (programs', s') := by
  rw [interleave] at hrun
  split at hrun
  · exact absurd hrun.symm (Option.some_ne_none _)
  · rename_i c next hcall
    split at hrun
    · exact ⟨c, next, hcall, ‹_›, hrun⟩
    · exact absurd hrun.symm (Option.some_ne_none _)

/-- Where all others have returned, the rest of the schedule runs the one program
to its end. -/
theorem runs_of_interleave {programs programs' : ι → Program C Answer α} {s s' : σ} {i : ι}
    {schedule : List (ι × δ)}
    (hrun : interleave M programs s schedule = some (programs', s'))
    (hothers : ∀ j, j ≠ i → ∃ value, programs j = .ret value)
    (hdone : ∃ value, programs' i = .ret value) :
    ∃ ds value, M.Runs (programs i) s ds value s' := by
  induction schedule generalizing programs s with
  | nil =>
      obtain ⟨rfl, rfl⟩ := Prod.mk.inj (Option.some.inj hrun)
      obtain ⟨value, hvalue⟩ := hdone
      rw [hvalue]
      exact ⟨[], value, .ret value s⟩
  | cons move schedule ih =>
      obtain ⟨j, d⟩ := move
      obtain ⟨c, next, hcall, hallowed, hrest⟩ := interleave_cons hrun
      by_cases hj : j = i
      · subst hj
        obtain ⟨ds, value, hruns⟩ := ih hrest fun k hk => by
          rw [Function.update_of_ne hk]
          exact hothers k hk
        rw [Function.update_self] at hruns
        rw [hcall]
        exact ⟨d :: ds, value, .call hallowed hruns⟩
      · obtain ⟨value, hvalue⟩ := hothers j hj
        rw [hcall] at hvalue
        cases hvalue

end Family

end Chronos.Library.Interleaving
