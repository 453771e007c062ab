import Chronos.Library.Interleaving

namespace Chronos.Library.Ownership

open Chronos.Library.CallProgram
open Chronos.Library.CallMachine
open Chronos.Library.Interleaving

variable {C : Type} {Answer : C → Type} {σ δ τ α γ K : Type}

/-- A proof outline for threads that own keys.  No two threads own the same key: a thread comes
to own only keys that were not issued before.  `Rely keys` is what a step looks like to the
others when the thread that takes it owns `keys`; what a thread knows need be stable only under
steps of threads that own none of its own keys. -/
structure Outline (S : System C Answer σ δ τ α) (P : Protocol C Answer γ) (K : Type) where
  Inv : σ → Prop
  Holds : γ → σ → Prop
  Owns : γ → K → Prop
  Issued : σ → K → Prop
  Rely : (K → Prop) → σ → σ → Prop
  issued : ∀ {s phase k}, Holds phase s → Owns phase k → Issued s k
  stable : ∀ {keys s s' phase}, Rely keys s s' → (∀ k, Owns phase k → ¬ keys k) →
    Holds phase s → Holds phase s'
  start : ∀ {p task s}, Inv p.state → S.start p task = some s →
    Inv s ∧ Rely (fun _ => False) p.state s ∧
      ∃ phase, Holds phase s ∧ (∀ k, ¬ Owns phase k) ∧
        (S.body task).Follows P (fun _ _ => True) phase
  call : ∀ {s phase c d}, Inv s → Holds phase s → P.Admits phase c → S.machine.Allowed s c d →
    Inv (S.machine.step c s d).2 ∧
      Rely (fun k => Owns phase k ∨ ¬ Issued s k) s (S.machine.step c s d).2 ∧
      Holds (P.after phase c (S.machine.step c s d).1) (S.machine.step c s d).2 ∧
      ∀ k, Owns (P.after phase c (S.machine.step c s d).1) k → Owns phase k ∨ ¬ Issued s k
  finish : ∀ {s task value} (d : δ), Inv s →
    Inv (S.finish task value d s) ∧ Rely (fun _ => False) s (S.finish task value d s)

variable {S : System C Answer σ δ τ α} {P : Protocol C Answer γ}

/-- A thread with the phase that it is in. -/
def Outline.Knows (O : Outline S P K) (s : σ) (known : Thread C Answer τ α × γ) : Prop :=
  O.Holds known.2 s ∧ known.1.rest.Follows P (fun _ _ => True) known.2

def Outline.Apart (O : Outline S P K) (first second : Thread C Answer τ α × γ) : Prop :=
  ∀ k, O.Owns first.2 k → ¬ O.Owns second.2 k

def Outline.Valid (O : Outline S P K) (p : Pool C Answer σ τ α) : Prop :=
  O.Inv p.state ∧ ∃ known : List (Thread C Answer τ α × γ), known.map Prod.fst = p.threads ∧
    (∀ entry ∈ known, O.Knows p.state entry) ∧ known.Pairwise O.Apart

theorem apart_symm (O : Outline S P K) {first second : Thread C Answer τ α × γ}
    (h : O.Apart first second) : O.Apart second first :=
  fun k hsecond hfirst => h k hfirst hsecond

theorem knows_stable (O : Outline S P K) {keys : K → Prop} {s s' : σ}
    {entry : Thread C Answer τ α × γ} (hrely : O.Rely keys s s')
    (hkeys : ∀ k, O.Owns entry.2 k → ¬ keys k) (h : O.Knows s entry) : O.Knows s' entry :=
  ⟨O.stable hrely hkeys h.1, h.2⟩

/-- A step keeps the outline valid, and is one that the others rely on. -/
theorem valid_step (O : Outline S P K) {p q : Pool C Answer σ τ α} {label : Label C τ α}
    (hp : O.Valid p) (hstep : S.Step p label q) :
    O.Valid q ∧ ∃ keys, O.Rely keys p.state q.state := by
  obtain ⟨hinv, known, hthreads, hknows, hapart⟩ := hp
  cases hstep with
  | @start p task s hstart =>
      obtain ⟨hinv', hrely, phase, hholds, hnone, hfollows⟩ := O.start hinv hstart
      refine ⟨⟨hinv', known ++ [(⟨task, S.body task⟩, phase)], ?_, ?_, ?_⟩, _, hrely⟩
      · rw [List.map_append, hthreads]
        rfl
      · intro entry hentry
        rcases List.mem_append.mp hentry with hold | hnew
        · exact knows_stable O hrely (fun _ _ h => h) (hknows entry hold)
        · rw [List.mem_singleton.mp hnew]
          exact ⟨hholds, hfollows⟩
      · refine List.pairwise_append.mpr ⟨hapart, List.pairwise_singleton _ _, ?_⟩
        intro entry _ new hnew k _ howns
        rw [List.mem_singleton.mp hnew] at howns
        exact hnone k howns
  | @advance s left right task c next d hallowed =>
      obtain ⟨knownLeft, knownRest, rfl, hleft, hrest⟩ := List.map_eq_append_iff.mp hthreads
      obtain ⟨⟨thread, phase⟩, knownRight, rfl, hthread, hright⟩ := List.map_eq_cons_iff.mp hrest
      dsimp only at hthread
      subst hthread
      obtain ⟨hholds, hadmits, hfollows⟩ :=
        hknows (⟨task, .call c next⟩, phase) List.mem_append_cons_self
      obtain ⟨hinv', hrely, hholds', howns⟩ := O.call hinv hholds hadmits hallowed
      obtain ⟨hapartLeft, hapartRest, hacross⟩ := List.pairwise_append.mp hapart
      obtain ⟨hbefore, hapartRight⟩ := List.pairwise_cons.mp hapartRest
      -- What the thread owns now, it owned before or nobody did.
      have hothers : ∀ entry ∈ knownLeft ++ knownRight, ∀ k, O.Owns entry.2 k →
          ¬ (O.Owns phase k ∨ ¬ O.Issued s k) := by
        rintro entry hentry k hk (hown | hfresh)
        · rcases List.mem_append.mp hentry with hl | hr
          · exact hacross entry hl _ List.mem_cons_self k hk hown
          · exact hbefore entry hr k hown hk
        · refine hfresh (O.issued (hknows entry ?_).1 hk)
          rcases List.mem_append.mp hentry with hl | hr
          · exact List.mem_append_left _ hl
          · exact List.mem_append_right _ (List.mem_cons_of_mem _ hr)
      have hnew : ∀ entry ∈ knownLeft ++ knownRight,
          O.Apart (⟨task, next (S.machine.step c s d).1⟩,
            P.after phase c (S.machine.step c s d).1) entry :=
        fun entry hentry k hk hother => hothers entry hentry k hother (howns k hk)
      refine ⟨⟨hinv', knownLeft ++ (⟨task, next (S.machine.step c s d).1⟩,
        P.after phase c (S.machine.step c s d).1) :: knownRight, ?_, ?_, ?_⟩, _, hrely⟩
      · rw [List.map_append, List.map_cons, hleft, hright]
      · intro entry hentry
        have hold : entry ∈ knownLeft ++ knownRight → O.Knows s entry := by
          intro h
          refine hknows entry ?_
          rcases List.mem_append.mp h with hl | hr
          · exact List.mem_append_left _ hl
          · exact List.mem_append_right _ (List.mem_cons_of_mem _ hr)
        rcases List.mem_append.mp hentry with hl | hr
        · have hmem := List.mem_append_left knownRight hl
          exact knows_stable O hrely (hothers entry hmem) (hold hmem)
        · rcases List.mem_cons.mp hr with rfl | hr
          · exact ⟨hholds', hfollows _⟩
          · have hmem := List.mem_append_right knownLeft hr
            exact knows_stable O hrely (hothers entry hmem) (hold hmem)
      · refine List.pairwise_append.mpr ⟨hapartLeft, List.pairwise_cons.mpr ⟨?_, hapartRight⟩, ?_⟩
        · exact fun entry hr => hnew entry (List.mem_append_right _ hr)
        · intro entry hl other hother
          rcases List.mem_cons.mp hother with rfl | hr
          · exact apart_symm O (hnew entry (List.mem_append_left _ hl))
          · exact hacross entry hl other (List.mem_cons_of_mem _ hr)
  | @finish s left right task value d =>
      obtain ⟨hinv', hrely⟩ : O.Inv (S.finish task value d s) ∧
        O.Rely (fun _ => False) s (S.finish task value d s) := O.finish d hinv
      obtain ⟨knownLeft, knownRest, rfl, hleft, hrest⟩ := List.map_eq_append_iff.mp hthreads
      obtain ⟨ended, knownRight, rfl, -, hright⟩ := List.map_eq_cons_iff.mp hrest
      have hsub : (knownLeft ++ knownRight).Sublist (knownLeft ++ ended :: knownRight) :=
        (List.Sublist.refl _).append (List.sublist_cons_self _ _)
      refine ⟨⟨hinv', knownLeft ++ knownRight, ?_, ?_, hapart.sublist hsub⟩, _, hrely⟩
      · rw [List.map_append, hleft, hright]
      · intro entry hentry
        exact knows_stable O hrely (fun _ _ h => h) (hknows entry (hsub.subset hentry))

/-- The run rule, with what a run does to the state in the eyes of a thread that owns
nothing. -/
theorem valid_reaches (O : Outline S P K) {R : σ → σ → Prop} (hrefl : ∀ s, R s s)
    (hrely : ∀ {keys s s' s''}, R s s' → O.Rely keys s' s'' → R s s'')
    {allowed : Pool C Answer σ τ α → Label C τ α → Prop} {p q : Pool C Answer σ τ α}
    (hp : O.Valid p) (hreach : S.Reaches allowed p q) : O.Valid q ∧ R p.state q.state := by
  refine reaches_invariant (I := fun q => O.Valid q ∧ R p.state q.state) ?_ hreach
    ⟨hp, hrefl _⟩
  rintro q label q' ⟨hvalid, hkept⟩ - hstep
  obtain ⟨hvalid', keys, hstepped⟩ := valid_step O hvalid hstep
  exact ⟨hvalid', hrely hkept hstepped⟩

end Chronos.Library.Ownership
