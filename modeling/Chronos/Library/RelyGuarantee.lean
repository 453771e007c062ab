import Chronos.Library.Interleaving

namespace Chronos.Library.RelyGuarantee

open Chronos.Library.CallProgram
open Chronos.Library.CallMachine
open Chronos.Library.Interleaving

variable {C : Type} {Answer : C → Type} {σ δ τ α γ : Type}

/-- A proof outline for all threads of a system.  A thread that is in a phase of
the protocol knows `Holds` of that phase; every step keeps the invariant and
changes the state only as `Rely` says, which is what the other threads rely on. -/
structure Outline (S : System C Answer σ δ τ α) (P : Protocol C Answer γ) where
  Inv : σ → Prop
  Holds : γ → σ → Prop
  Rely : σ → σ → Prop
  Final : τ → γ → α → Prop
  stable : ∀ {s s' phase}, Rely s s' → Holds phase s → Holds phase s'
  start : ∀ {p task s}, Inv p.state → S.start p task = some s →
    Inv s ∧ Rely p.state s ∧ ∃ phase, Holds phase s ∧ (S.body task).Follows P (Final task) phase
  call : ∀ {s phase c d}, Inv s → Holds phase s → P.Admits phase c → S.machine.Allowed s c d →
    Inv (S.machine.step c s d).2 ∧ Rely s (S.machine.step c s d).2 ∧
      Holds (P.after phase c (S.machine.step c s d).1) (S.machine.step c s d).2
  finish : ∀ {s phase task value} (d : δ), Inv s → Holds phase s → Final task phase value →
    Inv (S.finish task value d s) ∧ Rely s (S.finish task value d s)

variable {S : System C Answer σ δ τ α} {P : Protocol C Answer γ}

def Outline.Knows (O : Outline S P) (s : σ) (thread : Thread C Answer τ α) : Prop :=
  ∃ phase, O.Holds phase s ∧ thread.rest.Follows P (O.Final thread.task) phase

def Outline.Valid (O : Outline S P) (p : Pool C Answer σ τ α) : Prop :=
  O.Inv p.state ∧ ∀ thread ∈ p.threads, O.Knows p.state thread

theorem knows_stable (O : Outline S P) {s s' : σ} {thread : Thread C Answer τ α}
    (hrely : O.Rely s s') (hknows : O.Knows s thread) : O.Knows s' thread := by
  obtain ⟨phase, hholds, hfollows⟩ := hknows
  exact ⟨phase, O.stable hrely hholds, hfollows⟩

theorem valid_step (O : Outline S P) {p q : Pool C Answer σ τ α} {label : Label C τ α}
    (hp : O.Valid p) (hstep : S.Step p label q) : O.Valid q := by
  obtain ⟨hinv, hthreads⟩ := hp
  cases hstep with
  | start hstart =>
      obtain ⟨hinv', hrely, hnew⟩ := O.start hinv hstart
      refine ⟨hinv', fun thread hthread => ?_⟩
      rcases List.mem_append.mp hthread with hold | hthread
      · exact knows_stable O hrely (hthreads thread hold)
      · rw [List.mem_singleton.mp hthread]
        exact hnew
  | advance hallowed =>
      obtain ⟨phase, hholds, hadmits, hrest⟩ := hthreads _ List.mem_append_cons_self
      obtain ⟨hinv', hrely, hholds'⟩ := O.call hinv hholds hadmits hallowed
      refine ⟨hinv', fun thread hthread => ?_⟩
      rcases List.mem_append.mp hthread with hleft | hthread
      · exact knows_stable O hrely (hthreads thread (List.mem_append_left _ hleft))
      · rcases List.mem_cons.mp hthread with rfl | hright
        · exact ⟨_, hholds', hrest _⟩
        · refine knows_stable O hrely (hthreads thread (List.mem_append_right _ ?_))
          exact List.mem_cons_of_mem _ hright
  | finish d =>
      obtain ⟨phase, hholds, hfinal⟩ := hthreads _ List.mem_append_cons_self
      obtain ⟨hinv', hrely⟩ := O.finish d hinv hholds hfinal
      refine ⟨hinv', fun thread hthread => ?_⟩
      apply knows_stable O hrely
      apply hthreads
      rcases List.mem_append.mp hthread with hleft | hright
      · exact List.mem_append_left _ hleft
      · exact List.mem_append_right _ (List.mem_cons_of_mem _ hright)

theorem valid_reaches (O : Outline S P) {allowed : Pool C Answer σ τ α → Label C τ α → Prop}
    {p q : Pool C Answer σ τ α} (hreach : S.Reaches allowed p q) (hp : O.Valid p) :
    O.Valid q :=
  reaches_invariant (fun _ _ _ hvalid _ hstep => valid_step O hvalid hstep) hreach hp

end Chronos.Library.RelyGuarantee
