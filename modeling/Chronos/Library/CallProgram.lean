import Mathlib.Tactic.Common

namespace Chronos.Library.CallProgram

/-- A program over a set of calls.  It either returns a value or makes one call
and continues with whatever answer the call receives.  The same text can be run
to completion, cut off after any call, or interleaved with other programs. -/
inductive Program (C : Type) (Answer : C → Type) (α : Type) : Type
  | ret (value : α)
  | call (c : C) (next : Answer c → Program C Answer α)

variable {C : Type} {Answer : C → Type} {α β : Type}

def Program.bind : Program C Answer α → (α → Program C Answer β) → Program C Answer β
  | .ret value, f => f value
  | .call c next, f => .call c fun answer => (next answer).bind f

instance : Monad (Program C Answer) where
  pure := Program.ret
  bind := Program.bind

def perform (c : C) : Program C Answer (Answer c) :=
  .call c .ret

@[simp] theorem ret_bind (value : α) (f : α → Program C Answer β) :
    (Program.ret value >>= f) = f value := rfl

@[simp] theorem call_bind (c : C) (next : Answer c → Program C Answer α)
    (f : α → Program C Answer β) :
    (Program.call c next >>= f) = .call c fun answer => next answer >>= f := rfl

@[simp] theorem perform_bind (c : C) (f : Answer c → Program C Answer β) :
    (perform c >>= f) = .call c f := rfl

def forEach (items : List α) (body : α → Program C Answer Unit) :
    Program C Answer Unit :=
  match items with
  | [] => .ret ()
  | item :: rest => body item >>= fun _ => forEach rest body

def Program.next? : Program C Answer α → Option C
  | .ret _ => none
  | .call c _ => some c

/-- Every call the program can ever make, whatever the answers, satisfies
`allowed`. -/
def Program.CallsOnly (allowed : C → Prop) : Program C Answer α → Prop
  | .ret _ => True
  | .call c next => allowed c ∧ ∀ answer, (next answer).CallsOnly allowed

@[simp] theorem callsOnly_ret (allowed : C → Prop) (value : α) :
    (Program.ret value : Program C Answer α).CallsOnly allowed := trivial

@[simp] theorem callsOnly_perform (allowed : C → Prop) (c : C)
    (f : Answer c → Program C Answer α) :
    (perform c >>= f).CallsOnly allowed ↔
      allowed c ∧ ∀ answer, (f answer).CallsOnly allowed := Iff.rfl

theorem callsOnly_bind {allowed : C → Prop} {p : Program C Answer α}
    {f : α → Program C Answer β} (hp : p.CallsOnly allowed)
    (hf : ∀ value, (f value).CallsOnly allowed) : (p >>= f).CallsOnly allowed := by
  induction p with
  | ret value => exact hf value
  | call c next ih => exact ⟨hp.1, fun answer => ih answer (hp.2 answer)⟩

theorem callsOnly_mono {allowed wider : C → Prop} {p : Program C Answer α}
    (hp : p.CallsOnly allowed) (hwider : ∀ c, allowed c → wider c) :
    p.CallsOnly wider := by
  induction p with
  | ret value => trivial
  | call c next ih => exact ⟨hwider c hp.1, fun answer => ih answer (hp.2 answer)⟩

theorem callsOnly_and {allowed allowed' : C → Prop} {p : Program C Answer α}
    (hp : p.CallsOnly allowed) (hp' : p.CallsOnly allowed') :
    p.CallsOnly fun c => allowed c ∧ allowed' c := by
  induction p with
  | ret value => trivial
  | call c next ih => exact ⟨⟨hp.1, hp'.1⟩, fun answer => ih answer (hp.2 answer) (hp'.2 answer)⟩

theorem callsOnly_forEach {allowed : C → Prop} {items : List α}
    {body : α → Program C Answer Unit}
    (hbody : ∀ item ∈ items, (body item).CallsOnly allowed) :
    (forEach items body).CallsOnly allowed := by
  induction items with
  | nil => trivial
  | cons item rest ih =>
      refine callsOnly_bind (hbody item (by simp)) fun _ => ?_
      exact ih fun item hitem => hbody item (by simp [hitem])

/-- However the program goes on, it gets an answer in `due` before it returns,
or returns a value that `settled` accepts. -/
def Program.Owes (due : (c : C) → Answer c → Prop) (settled : α → Prop) :
    Program C Answer α → Prop
  | .ret value => settled value
  | .call c next => ∀ answer, due c answer ∨ (next answer).Owes due settled

@[simp] theorem owes_perform (due : (c : C) → Answer c → Prop) (settled : α → Prop) (c : C)
    (f : Answer c → Program C Answer α) :
    (perform c >>= f).Owes due settled ↔
      ∀ answer, due c answer ∨ (f answer).Owes due settled := Iff.rfl

theorem owes_bind {due : (c : C) → Answer c → Prop} {middle : α → Prop}
    {settled : β → Prop} {p : Program C Answer α} {f : α → Program C Answer β}
    (hp : p.Owes due middle) (hf : ∀ value, middle value → (f value).Owes due settled) :
    (p >>= f).Owes due settled := by
  induction p with
  | ret value => exact hf value hp
  | call c next ih => exact fun answer => (hp answer).imp_right (ih answer)

/-- A discipline on the order of calls: the calls a phase admits and the phase
that follows an answer. -/
structure Protocol (C : Type) (Answer : C → Type) (γ : Type) where
  Admits : γ → C → Prop
  after : γ → (c : C) → Answer c → γ

variable {γ : Type}

/-- From the given phase on, the program makes only calls its current phase
admits, whatever the answers, and returns only where `final` allows it. -/
def Program.Follows (P : Protocol C Answer γ) (final : γ → α → Prop) :
    γ → Program C Answer α → Prop
  | phase, .ret value => final phase value
  | phase, .call c next =>
      P.Admits phase c ∧ ∀ answer, (next answer).Follows P final (P.after phase c answer)

@[simp] theorem follows_call (P : Protocol C Answer γ) (final : γ → α → Prop) (phase : γ)
    (c : C) (next : Answer c → Program C Answer α) :
    (Program.call c next).Follows P final phase ↔
      P.Admits phase c ∧
        ∀ answer, (next answer).Follows P final (P.after phase c answer) := Iff.rfl

@[simp] theorem follows_perform (P : Protocol C Answer γ) (final : γ → α → Prop)
    (phase : γ) (c : C) (f : Answer c → Program C Answer α) :
    (perform c >>= f).Follows P final phase ↔
      P.Admits phase c ∧
        ∀ answer, (f answer).Follows P final (P.after phase c answer) := Iff.rfl

theorem follows_bind {P : Protocol C Answer γ} {middle : γ → α → Prop}
    {final : γ → β → Prop} {p : Program C Answer α} {f : α → Program C Answer β}
    {phase : γ} (hp : p.Follows P middle phase)
    (hf : ∀ phase value, middle phase value → (f value).Follows P final phase) :
    (p >>= f).Follows P final phase := by
  induction p generalizing phase with
  | ret value => exact hf phase value hp
  | call c next ih => exact ⟨hp.1, fun answer => ih answer (hp.2 answer)⟩

theorem follows_mono {P : Protocol C Answer γ} {final wider : γ → α → Prop}
    {p : Program C Answer α} {phase : γ} (hp : p.Follows P final phase)
    (hwider : ∀ phase value, final phase value → wider phase value) :
    p.Follows P wider phase := by
  induction p generalizing phase with
  | ret value => exact hwider phase value hp
  | call c next ih => exact ⟨hp.1, fun answer => ih answer (hp.2 answer)⟩

/-- A program that follows one discipline follows every other that simulates it. -/
theorem follows_of_simulation {ζ : Type} {P : Protocol C Answer γ} {Q : Protocol C Answer ζ}
    {R : γ → ζ → Prop} {final : γ → α → Prop} {final' : ζ → α → Prop} {p : Program C Answer α}
    {phase : γ} {phase' : ζ} (hp : p.Follows P final phase) (hR : R phase phase')
    (hcall : ∀ phase phase' c, R phase phase' → P.Admits phase c → Q.Admits phase' c ∧
      ∀ answer, R (P.after phase c answer) (Q.after phase' c answer))
    (hfinal : ∀ phase phase' value, R phase phase' → final phase value → final' phase' value) :
    p.Follows Q final' phase' := by
  induction p generalizing phase phase' with
  | ret value => exact hfinal phase phase' value hR hp
  | call c next ih =>
      obtain ⟨hadmits, hafter⟩ := hcall phase phase' c hR hp.1
      exact ⟨hadmits, fun answer => ih answer (hp.2 answer) (hafter answer)⟩

theorem follows_of_admits {P Q : Protocol C Answer γ} {final : γ → α → Prop}
    {p : Program C Answer α} {phase : γ} (hp : p.Follows P final phase)
    (hafter : P.after = Q.after) (hadmits : ∀ phase c, P.Admits phase c → Q.Admits phase c) :
    p.Follows Q final phase := by
  refine follows_of_simulation (R := Eq) hp rfl ?_ ?_
  · rintro phase _ c rfl hc
    exact ⟨hadmits phase c hc, fun answer => by rw [hafter]⟩
  · rintro phase _ value rfl hvalue
    exact hvalue

/-- Two disciplines side by side. -/
def Protocol.prod {ζ : Type} (P : Protocol C Answer γ) (Q : Protocol C Answer ζ) :
    Protocol C Answer (γ × ζ) where
  Admits phase c := P.Admits phase.1 c ∧ Q.Admits phase.2 c
  after phase c answer := (P.after phase.1 c answer, Q.after phase.2 c answer)

theorem follows_prod {ζ : Type} {P : Protocol C Answer γ} {Q : Protocol C Answer ζ}
    {final : γ → α → Prop} {final' : ζ → α → Prop} {p : Program C Answer α} {phase : γ}
    {phase' : ζ} (hp : p.Follows P final phase) (hq : p.Follows Q final' phase') :
    p.Follows (P.prod Q) (fun reached value => final reached.1 value ∧ final' reached.2 value)
      (phase, phase') := by
  induction p generalizing phase phase' with
  | ret value => exact ⟨hp, hq⟩
  | call c next ih =>
      exact ⟨⟨hp.1, hq.1⟩, fun answer => ih answer (hp.2 answer) (hq.2 answer)⟩

theorem follows_of_callsOnly {P : Protocol C Answer γ} {final : γ → α → Prop}
    {allowed : C → Prop} {phase : γ} {p : Program C Answer α} (hp : p.CallsOnly allowed)
    (hallowed : ∀ c, allowed c → P.Admits phase c ∧ ∀ answer, P.after phase c answer = phase)
    (hfinal : ∀ value, final phase value) : p.Follows P final phase := by
  induction p with
  | ret value => exact hfinal value
  | call c next ih =>
      obtain ⟨hadmits, hafter⟩ := hallowed c hp.1
      refine ⟨hadmits, fun answer => ?_⟩
      rw [hafter]
      exact ih answer (hp.2 answer)

/-- The loop rule: `I` relates the items still to do to the current phase. -/
theorem follows_forEach {P : Protocol C Answer γ} {items : List α}
    {body : α → Program C Answer Unit} {phase : γ} {I : List α → γ → Prop}
    (hbody : ∀ item rest phase, I (item :: rest) phase →
      (body item).Follows P (fun reached _ => I rest reached) phase)
    (hstart : I items phase) :
    (forEach items body).Follows P (fun reached _ => I [] reached) phase := by
  induction items generalizing phase with
  | nil => exact hstart
  | cons item rest ih => exact follows_bind (hbody item rest phase hstart) fun _ _ hrest => ih hrest

end Chronos.Library.CallProgram
