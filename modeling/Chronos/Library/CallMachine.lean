import Chronos.Library.CallProgram

namespace Chronos.Library.CallMachine

open Chronos.Library.CallProgram

/-- What answers the calls of a program: a state that a call reads and writes,
a draw for everything the call takes from outside (clocks, identifiers, the
outcome of a remote call), and the draws that can occur. -/
structure Machine (C : Type) (Answer : C → Type) (σ δ : Type) where
  step : (c : C) → σ → δ → Answer c × σ
  Allowed : σ → C → δ → Prop

variable {C : Type} {Answer : C → Type} {σ δ α β : Type}

/-- A complete run: every call of the program is answered in turn, one draw per
call, until it returns. -/
inductive Machine.Runs (M : Machine C Answer σ δ) :
    Program C Answer α → σ → List δ → α → σ → Prop
  | ret (value : α) (s : σ) : M.Runs (.ret value) s [] value s
  | call {c : C} {next : Answer c → Program C Answer α} {s s' : σ} {d : δ}
      {ds : List δ} {value : α} (hallowed : M.Allowed s c d)
      (hrest : M.Runs (next (M.step c s d).1) (M.step c s d).2 ds value s') :
      M.Runs (.call c next) s (d :: ds) value s'

theorem runs_ret_iff {M : Machine C Answer σ δ} {value result : α} {s s' : σ}
    {ds : List δ} :
    M.Runs (.ret value) s ds result s' ↔ ds = [] ∧ result = value ∧ s' = s := by
  constructor
  · rintro ⟨⟩
    exact ⟨rfl, rfl, rfl⟩
  · rintro ⟨rfl, rfl, rfl⟩
    exact .ret _ _

theorem runs_call_iff {M : Machine C Answer σ δ} {c : C}
    {next : Answer c → Program C Answer α} {s s' : σ} {ds : List δ} {value : α} :
    M.Runs (.call c next) s ds value s' ↔
      ∃ d rest, ds = d :: rest ∧ M.Allowed s c d ∧
        M.Runs (next (M.step c s d).1) (M.step c s d).2 rest value s' := by
  constructor
  · rintro ⟨⟩
    exact ⟨_, _, rfl, ‹_›, ‹_›⟩
  · rintro ⟨d, rest, rfl, hallowed, hrest⟩
    exact .call hallowed hrest

theorem runs_perform_iff {M : Machine C Answer σ δ} {c : C}
    {f : Answer c → Program C Answer α} {s s' : σ} {ds : List δ} {value : α} :
    M.Runs (perform c >>= f) s ds value s' ↔
      ∃ d rest, ds = d :: rest ∧ M.Allowed s c d ∧
        M.Runs (f (M.step c s d).1) (M.step c s d).2 rest value s' := by
  rw [perform_bind, runs_call_iff]

theorem runs_bind_iff {M : Machine C Answer σ δ} {p : Program C Answer α}
    {f : α → Program C Answer β} {s s' : σ} {ds : List δ} {value : β} :
    M.Runs (p >>= f) s ds value s' ↔
      ∃ first rest middle t, ds = first ++ rest ∧ M.Runs p s first middle t ∧
        M.Runs (f middle) t rest value s' := by
  induction p generalizing s ds with
  | ret v =>
      simp only [ret_bind, runs_ret_iff]
      constructor
      · intro hrun
        exact ⟨[], ds, v, s, rfl, ⟨rfl, rfl, rfl⟩, hrun⟩
      · rintro ⟨first, rest, middle, t, rfl, ⟨rfl, rfl, rfl⟩, hrun⟩
        exact hrun
  | call c next ih =>
      simp only [call_bind, runs_call_iff, ih]
      constructor
      · rintro ⟨d, _, rfl, hallowed, first, rest, middle, t, rfl, hfirst, hrest⟩
        exact ⟨d :: first, rest, middle, t, rfl,
          ⟨d, first, rfl, hallowed, hfirst⟩, hrest⟩
      · rintro ⟨_, rest, middle, t, rfl, ⟨d, first, rfl, hallowed, hfirst⟩, hrest⟩
        exact ⟨d, first ++ rest, rfl, hallowed, first, rest, middle, t, rfl,
          hfirst, hrest⟩

theorem runs_mono {M N : Machine C Answer σ δ} {p : Program C Answer α} {s s' : σ}
    {ds : List δ} {value : α} (hrun : M.Runs p s ds value s') (hstep : M.step = N.step)
    (hallowed : ∀ s c d, M.Allowed s c d → N.Allowed s c d) : N.Runs p s ds value s' := by
  obtain ⟨step, allowed⟩ := M
  obtain ⟨step', allowed'⟩ := N
  obtain rfl : step = step' := hstep
  induction hrun with
  | ret value s => exact .ret value s
  | call hdraw _ ih => exact .call (hallowed _ _ _ hdraw) ih

/-- Every complete run of `p` from `s` ends in a result and a state that
satisfy `Q`. -/
def Machine.Ensures (M : Machine C Answer σ δ) (p : Program C Answer α) (s : σ)
    (Q : α → σ → Prop) : Prop :=
  ∀ ds value s', M.Runs p s ds value s' → Q value s'

theorem ensures_ret {M : Machine C Answer σ δ} {value : α} {s : σ}
    {Q : α → σ → Prop} (hQ : Q value s) : M.Ensures (.ret value) s Q := by
  intro ds result s' hrun
  obtain ⟨-, rfl, rfl⟩ := runs_ret_iff.mp hrun
  exact hQ

theorem ensures_call {M : Machine C Answer σ δ} {c : C}
    {next : Answer c → Program C Answer α} {s : σ} {Q : α → σ → Prop}
    (hnext : ∀ d, M.Allowed s c d →
      M.Ensures (next (M.step c s d).1) (M.step c s d).2 Q) :
    M.Ensures (.call c next) s Q := by
  intro ds value s' hrun
  obtain ⟨d, rest, rfl, hallowed, hrest⟩ := runs_call_iff.mp hrun
  exact hnext d hallowed rest value s' hrest

theorem ensures_perform {M : Machine C Answer σ δ} {c : C}
    {f : Answer c → Program C Answer α} {s : σ} {Q : α → σ → Prop}
    (hnext : ∀ d, M.Allowed s c d →
      M.Ensures (f (M.step c s d).1) (M.step c s d).2 Q) :
    M.Ensures (perform c >>= f) s Q :=
  ensures_call hnext

theorem ensures_bind {M : Machine C Answer σ δ} {p : Program C Answer α}
    {f : α → Program C Answer β} {s : σ} {Q : β → σ → Prop}
    (hp : M.Ensures p s fun value t => M.Ensures (f value) t Q) :
    M.Ensures (p >>= f) s Q := by
  intro ds value s' hrun
  obtain ⟨first, rest, middle, t, -, hfirst, hrest⟩ := runs_bind_iff.mp hrun
  exact hp first middle t hfirst rest value s' hrest

theorem ensures_mono {M : Machine C Answer σ δ} {p : Program C Answer α} {s : σ}
    {Q R : α → σ → Prop} (hp : M.Ensures p s Q)
    (hQR : ∀ value t, Q value t → R value t) : M.Ensures p s R :=
  fun ds value s' hrun => hQR value s' (hp ds value s' hrun)

theorem ensures_return {M : Machine C Answer σ δ} {p : Program C Answer α} {s : σ}
    {f : α → β} {Q : σ → Prop} (hp : M.Ensures p s fun _ t => Q t) :
    M.Ensures (p >>= fun value => pure (f value)) s fun _ t => Q t :=
  ensures_bind (ensures_mono hp fun _ _ ht => ensures_ret ht)

/-- The loop rule: `I` relates the items still to do to the current state. -/
theorem ensures_forEach {M : Machine C Answer σ δ} {items : List α}
    {body : α → Program C Answer Unit} {s : σ} {I : List α → σ → Prop}
    (hbody : ∀ item rest t, I (item :: rest) t →
      M.Ensures (body item) t fun _ t' => I rest t')
    (hstart : I items s) : M.Ensures (forEach items body) s fun _ t => I [] t := by
  induction items generalizing s with
  | nil => exact ensures_ret hstart
  | cons item rest ih =>
      apply ensures_bind
      exact ensures_mono (hbody item rest s hstart) fun _ t ht => ih ht

theorem ensures_of_calls {M : Machine C Answer σ δ} {allowed : C → Prop}
    {I : σ → Prop} (hstep : ∀ c s d, allowed c → M.Allowed s c d → I s →
      I (M.step c s d).2)
    {p : Program C Answer α} (hp : p.CallsOnly allowed) {s : σ} (hs : I s) :
    M.Ensures p s fun _ t => I t := by
  induction p generalizing s with
  | ret value => exact ensures_ret hs
  | call c next ih =>
      apply ensures_call
      intro d hallowed
      exact ih _ (hp.2 _) (hstep c s d hp.1 hallowed hs)

/-- What every call keeps is kept by every program. -/
theorem ensures_invariant {M : Machine C Answer σ δ} {I : σ → Prop}
    (hstep : ∀ c s d, M.Allowed s c d → I s → I (M.step c s d).2) (p : Program C Answer α)
    {s : σ} (hs : I s) : M.Ensures p s fun _ t => I t := by
  induction p generalizing s with
  | ret value => exact ensures_ret hs
  | call c next ih =>
      apply ensures_call
      intro d hallowed
      exact ih _ (hstep c s d hallowed hs)

/-- What a program owes happens in every complete run, unless it returns a value that
settles the debt: where `K` holds up to the owed answer, and that answer establishes what
every later call keeps. -/
theorem ensures_of_owes {M : Machine C Answer σ δ} {allowed : C → Prop} {K I : σ → Prop}
    {due : (c : C) → Answer c → Prop} {settled : α → Prop}
    (hbefore : ∀ c s d, allowed c → M.Allowed s c d → K s → K (M.step c s d).2)
    (hdue : ∀ c s d, due c (M.step c s d).1 → M.Allowed s c d → K s → I (M.step c s d).2)
    (hafter : ∀ c s d, allowed c → M.Allowed s c d → I s → I (M.step c s d).2)
    {p : Program C Answer α} (hp : p.CallsOnly allowed) (howes : p.Owes due settled) {s : σ}
    (hs : K s) : M.Ensures p s fun value t => settled value ∨ I t := by
  induction p generalizing s with
  | ret value => exact ensures_ret (Or.inl howes)
  | call c next ih =>
      apply ensures_call
      intro d hallowed
      rcases howes (M.step c s d).1 with hpaid | howes
      · refine ensures_mono (ensures_of_calls hafter (hp.2 _) ?_) fun _ _ => Or.inr
        exact hdue c s d hpaid hallowed hs
      · exact ih _ (hp.2 _) howes (hbefore c s d hp.1 hallowed hs)

/-- A run that may stop after any of its calls.  The trace holds the calls it made and
what they drew. -/
inductive Machine.Halts (M : Machine C Answer σ δ) :
    Program C Answer α → σ → List (C × δ) → σ → Prop
  | stop (p : Program C Answer α) (s : σ) : M.Halts p s [] s
  | call {c : C} {next : Answer c → Program C Answer α} {s s' : σ} {d : δ}
      {trace : List (C × δ)} (hallowed : M.Allowed s c d)
      (hrest : M.Halts (next (M.step c s d).1) (M.step c s d).2 trace s') :
      M.Halts (.call c next) s ((c, d) :: trace) s'

theorem halts_of_runs {M : Machine C Answer σ δ} {p : Program C Answer α} {s s' : σ}
    {ds : List δ} {value : α} (hrun : M.Runs p s ds value s') :
    ∃ trace, M.Halts p s trace s' := by
  induction hrun with
  | ret value s => exact ⟨[], .stop _ s⟩
  | call hallowed _ ih =>
      obtain ⟨trace, hrest⟩ := ih
      exact ⟨_, .call hallowed hrest⟩

theorem halts_ret {M : Machine C Answer σ δ} {value : α} {s s' : σ} {trace : List (C × δ)}
    (hrun : M.Halts (.ret value) s trace s') : trace = [] ∧ s' = s := by
  cases hrun
  exact ⟨rfl, rfl⟩

theorem halts_perform {M : Machine C Answer σ δ} {c : C} {f : Answer c → Program C Answer α}
    {s s' : σ} {entry : C × δ} {trace : List (C × δ)}
    (hrun : M.Halts (perform c >>= f) s (entry :: trace) s') :
    ∃ d, entry = (c, d) ∧ M.Allowed s c d ∧
      M.Halts (f (M.step c s d).1) (M.step c s d).2 trace s' := by
  rw [perform_bind] at hrun
  cases hrun with
  | call hallowed hrest => exact ⟨_, rfl, hallowed, hrest⟩

theorem calls_of_halts {M : Machine C Answer σ δ} {allowed : C → Prop}
    {p : Program C Answer α} (hp : p.CallsOnly allowed) {s s' : σ} {trace : List (C × δ)}
    (hrun : M.Halts p s trace s') {c : C} {d : δ} (hcall : (c, d) ∈ trace) : allowed c := by
  induction hrun with
  | stop p s => exact absurd hcall List.not_mem_nil
  | call _ _ ih =>
      rcases List.mem_cons.mp hcall with heq | hrest
      · obtain ⟨rfl, rfl⟩ := Prod.mk.inj heq
        exact hp.1
      · exact ih (hp.2 _) hrest

theorem halts_keeps {M : Machine C Answer σ δ} {I : σ → Prop}
    (hstep : ∀ c s d, M.Allowed s c d → I s → I (M.step c s d).2) {p : Program C Answer α}
    {s s' : σ} {trace : List (C × δ)} (hrun : M.Halts p s trace s') (hs : I s) : I s' := by
  induction hrun with
  | stop p s => exact hs
  | call hallowed _ ih => exact ih (hstep _ _ _ hallowed hs)

section Phases

variable {γ : Type} {M : Machine C Answer σ δ} {P : Protocol C Answer γ}
  {Holds : γ → σ → Prop} {final : γ → α → Prop} {p : Program C Answer α} {phase : γ} {s : σ}

/-- What a phase says of the state, each admitted call carries over to the next phase;
so it holds at the end of a run. -/
theorem ensures_of_follows
    (hcall : ∀ {s phase c d}, Holds phase s → P.Admits phase c → M.Allowed s c d →
      Holds (P.after phase c (M.step c s d).1) (M.step c s d).2)
    (hp : p.Follows P final phase) (hs : Holds phase s) :
    M.Ensures p s fun value t => ∃ phase, Holds phase t ∧ final phase value := by
  induction p generalizing phase s with
  | ret value => exact ensures_ret ⟨phase, hs, hp⟩
  | call c next ih =>
      refine ensures_call fun d hallowed => ?_
      exact ih _ (hp.2 _) (hcall hs hp.1 hallowed)

theorem holds_of_halts
    (hcall : ∀ {s phase c d}, Holds phase s → P.Admits phase c → M.Allowed s c d →
      Holds (P.after phase c (M.step c s d).1) (M.step c s d).2)
    (hp : p.Follows P final phase) (hs : Holds phase s) {trace : List (C × δ)} {s' : σ}
    (hrun : M.Halts p s trace s') : ∃ phase, Holds phase s' := by
  induction hrun generalizing phase with
  | stop p s => exact ⟨phase, hs⟩
  | call hallowed _ ih => exact ih (hp.2 _) (hcall hs hp.1 hallowed)

/-- A run in which every admitted call is answered by a draw that carries the phase over
to the next. -/
theorem exists_runs_of_follows
    (hcall : ∀ {s phase c}, Holds phase s → P.Admits phase c → ∃ d, M.Allowed s c d ∧
      Holds (P.after phase c (M.step c s d).1) (M.step c s d).2)
    (hp : p.Follows P final phase) (hs : Holds phase s) :
    ∃ ds value s' phase, M.Runs p s ds value s' ∧ Holds phase s' ∧ final phase value := by
  induction p generalizing phase s with
  | ret value => exact ⟨[], value, s, phase, .ret value s, hs, hp⟩
  | call c next ih =>
      obtain ⟨d, hallowed, hholds⟩ := hcall hs hp.1
      obtain ⟨ds, value, s', reached, hrun, hreached, hfinal⟩ := ih _ (hp.2 _) hholds
      exact ⟨d :: ds, value, s', reached, .call hallowed hrun, hreached, hfinal⟩

end Phases

/-- Every call on `M`, seen through `view`, is a call on `N` with the same answer. -/
def Machine.Refines {τ ε : Type} (M : Machine C Answer σ δ) (N : Machine C Answer τ ε)
    (view : σ → τ) : Prop :=
  ∀ s c d, M.Allowed s c d → ∃ e, N.Allowed (view s) c e ∧
    (N.step c (view s) e).1 = (M.step c s d).1 ∧
    (N.step c (view s) e).2 = view (M.step c s d).2

/-- Run a program on given draws; `none` if a draw is missing, left over or not
allowed. -/
def Machine.exec (M : Machine C Answer σ δ) [∀ s c d, Decidable (M.Allowed s c d)] :
    Program C Answer α → σ → List δ → Option (α × σ)
  | .ret value, s, [] => some (value, s)
  | .ret _, _, _ :: _ => none
  | .call _ _, _, [] => none
  | .call c next, s, d :: ds =>
      if M.Allowed s c d then M.exec (next (M.step c s d).1) (M.step c s d).2 ds
      else none

theorem runs_of_exec {M : Machine C Answer σ δ} [∀ s c d, Decidable (M.Allowed s c d)]
    {p : Program C Answer α} {s s' : σ} {ds : List δ} {value : α}
    (hexec : M.exec p s ds = some (value, s')) : M.Runs p s ds value s' := by
  induction p generalizing s ds with
  | ret v =>
      cases ds with
      | nil =>
          simp only [Machine.exec, Option.some.injEq, Prod.mk.injEq] at hexec
          obtain ⟨rfl, rfl⟩ := hexec
          exact .ret _ _
      | cons d ds => simp [Machine.exec] at hexec
  | call c next ih =>
      cases ds with
      | nil => simp [Machine.exec] at hexec
      | cons d ds =>
          simp only [Machine.exec] at hexec
          split at hexec
          · exact .call ‹_› (ih _ hexec)
          · simp at hexec

theorem runs_of_get {M : Machine C Answer σ δ} [∀ s c d, Decidable (M.Allowed s c d)]
    {p : Program C Answer α} {s : σ} {ds : List δ} (hexec : (M.exec p s ds).isSome) :
    M.Runs p s ds ((M.exec p s ds).get hexec).1 ((M.exec p s ds).get hexec).2 := by
  apply runs_of_exec
  exact (Option.some_get hexec).symm

/-- Run a program for as many calls as there are draws; `none` if it returns before or a
draw is not allowed. -/
def Machine.cut (M : Machine C Answer σ δ) [∀ s c d, Decidable (M.Allowed s c d)] :
    Program C Answer α → σ → List δ → Option (List (C × δ) × σ)
  | _, s, [] => some ([], s)
  | .ret _, _, _ :: _ => none
  | .call c next, s, d :: ds =>
      if M.Allowed s c d then
        (M.cut (next (M.step c s d).1) (M.step c s d).2 ds).map fun r => ((c, d) :: r.1, r.2)
      else none

theorem halts_of_cut {M : Machine C Answer σ δ} [∀ s c d, Decidable (M.Allowed s c d)]
    {p : Program C Answer α} {s s' : σ} {ds : List δ} {trace : List (C × δ)}
    (hcut : M.cut p s ds = some (trace, s')) : M.Halts p s trace s' := by
  induction ds generalizing p s trace with
  | nil =>
      rw [Machine.cut] at hcut
      obtain ⟨rfl, rfl⟩ := Prod.mk.inj (Option.some.inj hcut)
      exact .stop p s
  | cons d ds ih =>
      cases p with
      | ret value => simp [Machine.cut] at hcut
      | call c next =>
          rw [Machine.cut] at hcut
          split at hcut
          · obtain ⟨⟨rest, t⟩, hrest, heq⟩ := Option.map_eq_some_iff.mp hcut
            obtain ⟨rfl, rfl⟩ := Prod.mk.inj heq
            exact .call ‹_› (ih hrest)
          · simp at hcut

theorem halts_of_get {M : Machine C Answer σ δ} [∀ s c d, Decidable (M.Allowed s c d)]
    {p : Program C Answer α} {s : σ} {ds : List δ} (hcut : (M.cut p s ds).isSome) :
    M.Halts p s ((M.cut p s ds).get hcut).1 ((M.cut p s ds).get hcut).2 := by
  apply halts_of_cut
  exact (Option.some_get hcut).symm

/-- The calls that a run with the given draws makes, each with its draw. -/
def Machine.trace (M : Machine C Answer σ δ) : Program C Answer α → σ → List δ → List (C × δ)
  | .ret _, _, _ => []
  | .call _ _, _, [] => []
  | .call c next, s, d :: ds => (c, d) :: M.trace (next (M.step c s d).1) (M.step c s d).2 ds

@[simp] theorem trace_perform {M : Machine C Answer σ δ} {c : C}
    {f : Answer c → Program C Answer α} {s : σ} {d : δ} {ds : List δ} :
    M.trace (perform c >>= f) s (d :: ds) =
      (c, d) :: M.trace (f (M.step c s d).1) (M.step c s d).2 ds := rfl

theorem trace_bind {M : Machine C Answer σ δ} {p : Program C Answer α}
    {f : α → Program C Answer β} {s t : σ} {first : List δ} {value : α}
    (hrun : M.Runs p s first value t) (rest : List δ) :
    M.trace (p >>= f) s (first ++ rest) = M.trace p s first ++ M.trace (f value) t rest := by
  induction hrun with
  | ret value s => rfl
  | call _ _ ih =>
      rw [List.cons_append, call_bind, Machine.trace, Machine.trace, ih]
      rfl

theorem calls_of_trace {M : Machine C Answer σ δ} {allowed : C → Prop}
    {p : Program C Answer α} (hp : p.CallsOnly allowed) {s : σ} {ds : List δ} {c : C} {d : δ}
    (hcall : (c, d) ∈ M.trace p s ds) : allowed c := by
  induction ds generalizing p s with
  | nil => cases p <;> exact absurd hcall List.not_mem_nil
  | cons e ds ih =>
      cases p with
      | ret value => exact absurd hcall List.not_mem_nil
      | call c' next =>
          rcases List.mem_cons.mp hcall with heq | hrest
          · obtain ⟨rfl, rfl⟩ := Prod.mk.inj heq
            exact hp.1
          · exact ih (hp.2 _) hrest

theorem exists_runs {M : Machine C Answer σ δ}
    (hdraw : ∀ s c, ∃ d, M.Allowed s c d) (p : Program C Answer α) (s : σ) :
    ∃ ds value s', M.Runs p s ds value s' := by
  induction p generalizing s with
  | ret value => exact ⟨[], value, s, .ret value s⟩
  | call c next ih =>
      obtain ⟨d, hallowed⟩ := hdraw s c
      obtain ⟨ds, value, s', hrest⟩ := ih (M.step c s d).1 (M.step c s d).2
      exact ⟨d :: ds, value, s', .call hallowed hrest⟩

/-- Some complete run of `p` from `s` ends in a result and a state that satisfy `Q`. -/
def Machine.Permits (M : Machine C Answer σ δ) (p : Program C Answer α) (s : σ)
    (Q : α → σ → Prop) : Prop :=
  ∃ ds value s', M.Runs p s ds value s' ∧ Q value s'

theorem permits_perform {M : Machine C Answer σ δ} {c : C} {f : Answer c → Program C Answer α}
    {s : σ} {Q : α → σ → Prop} {d : δ} (hallowed : M.Allowed s c d)
    (hnext : M.Permits (f (M.step c s d).1) (M.step c s d).2 Q) :
    M.Permits (perform c >>= f) s Q := by
  obtain ⟨ds, value, s', hrun, hQ⟩ := hnext
  exact ⟨d :: ds, value, s', .call hallowed hrun, hQ⟩

theorem permits_bind {M : Machine C Answer σ δ} {p : Program C Answer α}
    {f : α → Program C Answer β} {s : σ} {Q : β → σ → Prop}
    (hp : M.Permits p s fun value t => M.Permits (f value) t Q) :
    M.Permits (p >>= f) s Q := by
  obtain ⟨first, middle, t, hfirst, rest, value, s', hrest, hQ⟩ := hp
  exact ⟨first ++ rest, value, s', runs_bind_iff.mpr
    ⟨first, rest, middle, t, rfl, hfirst, hrest⟩, hQ⟩

theorem permits_of_ensures {M : Machine C Answer σ δ}
    (hdraw : ∀ s c, ∃ d, M.Allowed s c d) {p : Program C Answer α} {s : σ}
    {Q : α → σ → Prop} (hp : M.Ensures p s Q) : M.Permits p s Q := by
  obtain ⟨ds, value, s', hrun⟩ := exists_runs hdraw p s
  exact ⟨ds, value, s', hrun, hp ds value s' hrun⟩

end Chronos.Library.CallMachine
