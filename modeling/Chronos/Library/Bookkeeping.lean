import Chronos.Library.Interleaving
import Mathlib.Data.Multiset.Basic

namespace Chronos.Library.Bookkeeping

open Chronos.Library.CallProgram
open Chronos.Library.CallMachine
open Chronos.Library.Interleaving

variable {C : Type} {Answer : C → Type} {σ δ τ α γ κ : Type}

/-- Books kept beside a system.  A task sets out with a duty, an answer can change the duty of
the task that gets it, and a call is entered with the duty of the task that makes it. -/
structure Ledger (C : Type) (Answer : C → Type) (τ γ κ : Type) where
  duty : τ → γ
  after : γ → (c : C) → Answer c → γ
  record : γ → (c : C) → Answer c → κ → κ

/-- A program whose calls and results carry the duty in which they are made. -/
abbrev Annotated (C : Type) (Answer : C → Type) (γ α : Type) :=
  Program (γ × C) (fun c => Answer c.2) (α × γ)

def Ledger.annotate (L : Ledger C Answer τ γ κ) :
    γ → Program C Answer α → Annotated C Answer γ α
  | duty, .ret value => .ret (value, duty)
  | duty, .call c next =>
      .call (duty, c) fun answer => L.annotate (L.after duty c answer) (next answer)

def erase : Annotated C Answer γ α → Program C Answer α
  | .ret value => .ret value.1
  | .call c next => .call c.2 fun answer => erase (next answer)

def dutyOf : Annotated C Answer γ α → γ
  | .ret value => value.2
  | .call c _ => c.1

theorem erase_annotate (L : Ledger C Answer τ γ κ) (duty : γ) (p : Program C Answer α) :
    erase (L.annotate duty p) = p := by
  induction p generalizing duty with
  | ret value => rfl
  | call c next ih =>
      rw [Ledger.annotate, erase]
      congr 1
      funext answer
      exact ih answer _

theorem dutyOf_annotate (L : Ledger C Answer τ γ κ) (duty : γ) (p : Program C Answer α) :
    dutyOf (L.annotate duty p) = duty := by
  cases p <;> rfl

abbrev AnnotatedPool (C : Type) (Answer : C → Type) (σ κ τ γ α : Type) :=
  Pool (γ × C) (fun c => Answer c.2) (σ × κ) τ (α × γ)

def eraseThread (thread : Thread (γ × C) (fun c => Answer c.2) τ (α × γ)) :
    Thread C Answer τ α :=
  ⟨thread.task, erase thread.rest⟩

def erasePool (p : AnnotatedPool C Answer σ κ τ γ α) : Pool C Answer σ τ α :=
  ⟨p.state.1, p.threads.map eraseThread⟩

def eraseLabel : Label (γ × C) τ (α × γ) → Label C τ α
  | .started task => .started task
  | .made task c => .made task c.2
  | .finished task value => .finished task value.1

/-- The system with its books, in which every call is made where `Q` allows it. -/
def Ledger.system (L : Ledger C Answer τ γ κ) (S : System C Answer σ δ τ α)
    (Q : σ × κ → γ × C → δ → Prop) :
    System (γ × C) (fun c => Answer c.2) (σ × κ) δ τ (α × γ) where
  machine :=
    { step := fun c s d =>
        let r := S.machine.step c.2 s.1 d
        (r.1, r.2, L.record c.1 c.2 r.1 s.2)
      Allowed := fun s c d => S.machine.Allowed s.1 c.2 d ∧ Q s c d }
  body task := L.annotate (L.duty task) (S.body task)
  start p task := (S.start (erasePool p) task).map fun s => (s, p.state.2)
  finish task value d s := (S.finish task value.1 d s.1, s.2)

instance (L : Ledger C Answer τ γ κ) (S : System C Answer σ δ τ α)
    (Q : σ × κ → γ × C → δ → Prop) [∀ s c d, Decidable (S.machine.Allowed s c d)]
    [∀ s c d, Decidable (Q s c d)] (s : σ × κ) (c : γ × C) (d : δ) :
    Decidable ((L.system S Q).machine.Allowed s c d) :=
  inferInstanceAs (Decidable (_ ∧ _))

section Erasure

variable {L : Ledger C Answer τ γ κ} {S : System C Answer σ δ τ α}
  {Q : σ × κ → γ × C → δ → Prop} {p q : AnnotatedPool C Answer σ κ τ γ α}

/-- The books change nothing: without them, a step is a step of the system. -/
theorem erase_step {label : Label (γ × C) τ (α × γ)} (hstep : (L.system S Q).Step p label q) :
    S.Step (erasePool p) (eraseLabel label) (erasePool q) := by
  cases hstep with
  | @start _ task s hstart =>
      obtain ⟨s, hplain, rfl⟩ := Option.map_eq_some_iff.mp hstart
      have hnew : S.Step (erasePool p) (.started task)
          ⟨s, p.threads.map eraseThread ++ [⟨task, S.body task⟩]⟩ := .start hplain
      simp only [erasePool, eraseThread, List.map_append, List.map_cons, List.map_nil,
        Ledger.system, erase_annotate] at hnew ⊢
      exact hnew
  | advance hallowed =>
      simp only [erasePool, eraseThread, List.map_append, List.map_cons, erase]
      exact .advance hallowed.1
  | finish d =>
      simp only [erasePool, eraseThread, List.map_append, List.map_cons, erase]
      exact .finish d

/-- The books can be kept on every step of the system. -/
theorem exists_step {q : Pool C Answer σ τ α} {label : Label C τ α}
    (hstep : S.Step (erasePool p) label q) :
    ∃ label' q', (L.system S fun _ _ _ => True).Step p label' q' ∧ eraseLabel label' = label ∧
      erasePool q' = q := by
  obtain ⟨⟨s, books⟩, threads⟩ := p
  generalize hp : erasePool _ = p at hstep
  cases hstep with
  | @start _ task s' hstart =>
      subst hp
      refine ⟨.started task, _, .start (Option.map_eq_some_iff.mpr ⟨s', hstart, rfl⟩), rfl, ?_⟩
      simp only [erasePool, eraseThread, List.map_append, List.map_cons, List.map_nil,
        Ledger.system, erase_annotate]
  | @advance s left right task c next d hallowed =>
      obtain ⟨rfl, hthreads⟩ := Pool.mk.inj hp
      obtain ⟨left, tail, rfl, rfl, htail⟩ := List.map_eq_append_iff.mp hthreads
      obtain ⟨⟨task', rest⟩, right, rfl, hthread, rfl⟩ := List.map_eq_cons_iff.mp htail
      obtain ⟨rfl, hrest⟩ := Thread.mk.inj hthread
      cases rest with
      | ret value => cases hrest
      | call c next =>
          obtain ⟨rfl, hnext⟩ := Program.call.inj hrest
          obtain rfl := eq_of_heq hnext
          refine ⟨.made task' c, _, .advance ⟨hallowed, trivial⟩, rfl, ?_⟩
          simp only [erasePool, eraseThread, List.map_append, List.map_cons, Ledger.system]
  | @finish s left right task value d =>
      obtain ⟨rfl, hthreads⟩ := Pool.mk.inj hp
      obtain ⟨left, tail, rfl, rfl, htail⟩ := List.map_eq_append_iff.mp hthreads
      obtain ⟨⟨task', rest⟩, right, rfl, hthread, rfl⟩ := List.map_eq_cons_iff.mp htail
      obtain ⟨rfl, hrest⟩ := Thread.mk.inj hthread
      cases rest with
      | call c next => cases hrest
      | ret value =>
          obtain rfl := Program.ret.inj hrest
          refine ⟨.finished task' value, _, .finish d, rfl, ?_⟩
          simp only [erasePool, List.map_append, Ledger.system]

variable {P : Pool C Answer σ τ α → Label C τ α → Prop}

theorem erase_reaches
    (hreach : (L.system S Q).Reaches (fun p label => P (erasePool p) (eraseLabel label)) p q) :
    S.Reaches P (erasePool p) (erasePool q) := by
  induction hreach with
  | refl => exact .refl
  | tail _ hlast ih =>
      obtain ⟨label, hP, hstep⟩ := hlast
      exact ih.tail ⟨eraseLabel label, hP, erase_step hstep⟩

theorem exists_reaches {q : Pool C Answer σ τ α} (hreach : S.Reaches P (erasePool p) q) :
    ∃ q', (L.system S fun _ _ _ => True).Reaches
      (fun p label => P (erasePool p) (eraseLabel label)) p q' ∧ erasePool q' = q := by
  induction hreach with
  | refl => exact ⟨p, .refl, rfl⟩
  | tail _ hlast ih =>
      obtain ⟨label, hP, hstep⟩ := hlast
      obtain ⟨middle, hmiddle, rfl⟩ := ih
      obtain ⟨label', q', hstep', rfl, rfl⟩ := exists_step hstep
      exact ⟨q', hmiddle.tail ⟨label', hP, hstep'⟩, rfl⟩

end Erasure

/-- The duties of all tasks under way. -/
def duties (p : AnnotatedPool C Answer σ κ τ γ α) : Multiset γ :=
  p.threads.map fun thread => dutyOf thread.rest

theorem duties_middle (s : σ × κ)
    (left right : List (Thread (γ × C) (fun c => Answer c.2) τ (α × γ)))
    (thread : Thread (γ × C) (fun c => Answer c.2) τ (α × γ)) :
    duties (⟨s, left ++ thread :: right⟩ : AnnotatedPool C Answer σ κ τ γ α) =
      dutyOf thread.rest ::ₘ
        duties (⟨s, left ++ right⟩ : AnnotatedPool C Answer σ κ τ γ α) := by
  have hperm : (left ++ thread :: right).Perm (thread :: (left ++ right)) := List.perm_middle
  exact Multiset.coe_eq_coe.mpr (hperm.map fun thread => dutyOf thread.rest)

def Ledger.protocol (L : Ledger C Answer τ γ κ) (Admits : γ → C → Prop) :
    Protocol C Answer γ where
  Admits := Admits
  after := L.after

section Invariants

variable {L : Ledger C Answer τ γ κ} {S : System C Answer σ δ τ α}
  {Q : σ × κ → γ × C → δ → Prop} {Admits : γ → C → Prop} {Final : γ → Prop}
  {I : σ → κ → Multiset γ → Prop} {P : Pool C Answer σ τ α → Label C τ α → Prop}
  {p q : AnnotatedPool C Answer σ κ τ γ α}

/-- Every thread goes on as its duty admits. -/
def Ledger.Kept (L : Ledger C Answer τ γ κ) (Admits : γ → C → Prop) (Final : γ → Prop)
    (p : AnnotatedPool C Answer σ κ τ γ α) : Prop :=
  ∀ thread ∈ p.threads, ∃ duty rest, thread.rest = L.annotate duty rest ∧
    rest.Follows (L.protocol Admits) (fun duty _ => Final duty) duty

/-- The step rule for the books: an invariant speaks of the state, the books and the duties
under way, and one duty at a time changes. -/
theorem kept_step
    (hbody : ∀ p task, P p (.started task) →
      (S.body task).Follows (L.protocol Admits) (fun duty _ => Final duty) (L.duty task))
    (hstart : ∀ {p task s books rest}, I p.state books rest → P p (.started task) →
      S.start p task = some s → I s books (L.duty task ::ₘ rest))
    (hcall : ∀ {s books duty rest c d}, I s books (duty ::ₘ rest) → Admits duty c →
      S.machine.Allowed s c d → Q (s, books) (duty, c) d →
      I (S.machine.step c s d).2 (L.record duty c (S.machine.step c s d).1 books)
        (L.after duty c (S.machine.step c s d).1 ::ₘ rest))
    (hfinish : ∀ {s books duty rest} (task : τ) (value : α) (d : δ), I s books (duty ::ₘ rest) →
      Final duty → I (S.finish task value d s) books rest)
    {label : Label (γ × C) τ (α × γ)} (hP : P (erasePool p) (eraseLabel label))
    (hstep : (L.system S Q).Step p label q) (hp : L.Kept Admits Final p)
    (hI : I p.state.1 p.state.2 (duties p)) :
    L.Kept Admits Final q ∧ I q.state.1 q.state.2 (duties q) := by
  cases hstep with
  | @start _ task s hstarted =>
      obtain ⟨s, hplain, rfl⟩ := Option.map_eq_some_iff.mp hstarted
      refine ⟨fun thread hthread => ?_, ?_⟩
      · rcases List.mem_append.mp hthread with hold | hnew
        · exact hp thread hold
        · rw [List.mem_singleton.mp hnew]
          exact ⟨L.duty task, S.body task, rfl, hbody _ task hP⟩
      · have hduties := duties_middle (s, p.state.2) p.threads [] ⟨task, (L.system S Q).body task⟩
        rw [List.append_nil] at hduties
        rw [hduties]
        simp only [Ledger.system, dutyOf_annotate]
        exact hstart hI hP hplain
  | @advance s left right task c next d hallowed =>
      obtain ⟨duty, rest, hrest, hfollows⟩ := hp _ List.mem_append_cons_self
      cases rest with
      | ret value => cases hrest
      | call c' next' =>
          obtain ⟨rfl, hnext⟩ := Program.call.inj hrest
          obtain rfl := eq_of_heq hnext
          obtain ⟨hadmits, hfollows⟩ := hfollows
          refine ⟨fun thread hthread => ?_, ?_⟩
          · rcases List.mem_append.mp hthread with hleft | hthread
            · exact hp thread (List.mem_append_left _ hleft)
            · rcases List.mem_cons.mp hthread with rfl | hright
              · exact ⟨_, _, rfl, hfollows _⟩
              · exact hp thread (List.mem_append_right _ (List.mem_cons_of_mem _ hright))
          · rw [duties_middle] at hI ⊢
            simp only [dutyOf_annotate]
            exact hcall hI hadmits hallowed.1 hallowed.2
  | @finish s left right task value d =>
      obtain ⟨duty, rest, hrest, hfollows⟩ := hp _ List.mem_append_cons_self
      cases rest with
      | call c next => cases hrest
      | ret value' =>
          obtain rfl := Program.ret.inj hrest
          refine ⟨fun thread hthread => hp thread ?_, ?_⟩
          · rcases List.mem_append.mp hthread with hleft | hright
            · exact List.mem_append_left _ hleft
            · exact List.mem_append_right _ (List.mem_cons_of_mem _ hright)
          · rw [duties_middle] at hI
            exact hfinish task value' d hI hfollows

/-- The run rule for the books. -/
theorem kept_reaches
    (hbody : ∀ p task, P p (.started task) →
      (S.body task).Follows (L.protocol Admits) (fun duty _ => Final duty) (L.duty task))
    (hstart : ∀ {p task s books rest}, I p.state books rest → P p (.started task) →
      S.start p task = some s → I s books (L.duty task ::ₘ rest))
    (hcall : ∀ {s books duty rest c d}, I s books (duty ::ₘ rest) → Admits duty c →
      S.machine.Allowed s c d → Q (s, books) (duty, c) d →
      I (S.machine.step c s d).2 (L.record duty c (S.machine.step c s d).1 books)
        (L.after duty c (S.machine.step c s d).1 ::ₘ rest))
    (hfinish : ∀ {s books duty rest} (task : τ) (value : α) (d : δ), I s books (duty ::ₘ rest) →
      Final duty → I (S.finish task value d s) books rest)
    (hreach : (L.system S Q).Reaches (fun p label => P (erasePool p) (eraseLabel label)) p q)
    (hp : L.Kept Admits Final p) (hI : I p.state.1 p.state.2 (duties p)) :
    I q.state.1 q.state.2 (duties q) := by
  refine (reaches_invariant (I := fun p => L.Kept Admits Final p ∧
    I p.state.1 p.state.2 (duties p)) ?_ hreach ⟨hp, hI⟩).2
  intro p label q hkept hP hstep
  exact kept_step hbody hstart hcall hfinish hP hstep hkept.1 hkept.2

end Invariants

section Tickets

variable {ι : Type} {issued issued' : List ι} {held held' : Multiset ι} {spent spent' : ι → Prop}
  {x : ι}

/-- Tickets are issued once and spent once: those still held are issued, all different and
not spent. -/
structure Tickets (issued : List ι) (held : Multiset ι) (spent : ι → Prop) : Prop where
  heldIssued : ∀ x ∈ held, x ∈ issued
  spentIssued : ∀ x, spent x → x ∈ issued
  distinct : held.Nodup
  unspent : ∀ x ∈ held, ¬spent x

theorem tickets_issue (h : Tickets issued held spent) (hfresh : x ∉ issued) :
    Tickets (x :: issued) (x ::ₘ held) spent where
  heldIssued := fun y hy => (Multiset.mem_cons.mp hy).elim
    (fun heq => heq ▸ List.mem_cons_self) fun hy => List.mem_cons_of_mem _ (h.heldIssued y hy)
  spentIssued := fun y hy => List.mem_cons_of_mem _ (h.spentIssued y hy)
  distinct := Multiset.nodup_cons.mpr ⟨fun hx => hfresh (h.heldIssued x hx), h.distinct⟩
  unspent := fun y hy => (Multiset.mem_cons.mp hy).elim
    (fun heq hspent => hfresh (heq ▸ h.spentIssued y hspent)) (h.unspent y)

theorem tickets_spend (h : Tickets issued (x ::ₘ held) spent)
    (hspent : ∀ y, spent' y → y = x ∨ spent y) : Tickets issued held spent' where
  heldIssued := fun y hy => h.heldIssued y (Multiset.mem_cons_of_mem hy)
  spentIssued := fun y hy => (hspent y hy).elim
    (fun heq => heq ▸ h.heldIssued x (Multiset.mem_cons_self x held)) (h.spentIssued y)
  distinct := (Multiset.nodup_cons.mp h.distinct).2
  unspent := fun y hy hy' => (hspent y hy').elim
    (fun heq => (Multiset.nodup_cons.mp h.distinct).1 (heq ▸ hy))
    (h.unspent y (Multiset.mem_cons_of_mem hy))

theorem tickets_later (h : Tickets issued held spent) (hissued : ∀ x ∈ issued, x ∈ issued')
    (hheld : held' ≤ held) : Tickets issued' held' spent where
  heldIssued := fun y hy => hissued y (h.heldIssued y (Multiset.mem_of_le hheld hy))
  spentIssued := fun y hy => hissued y (h.spentIssued y hy)
  distinct := Multiset.nodup_of_le hheld h.distinct
  unspent := fun y hy => h.unspent y (Multiset.mem_of_le hheld hy)

end Tickets

end Chronos.Library.Bookkeeping
