import Chronos.WebhookOutcomes

namespace Chronos.BuiltinOutcomes

open Chronos.ClientCancels (reportResult)
open Chronos.Domain
open Chronos.Library.CallMachine
open Chronos.Operations (Outcome Task echoJob smallConfig utcOnly)
open Chronos.SchedulerService
open Chronos.SharedState
open Chronos.WebhookOutcomes
open Chronos.WorkerProcess
open Chronos.WorkerRegistry (Authenticator)

structure BuiltinPayload where
  handler : String
  args : RawMessage
  deriving DecidableEq, Repr

/-- The functions of Go's libraries that the executor calls.  The arguments of a handler are
what `json.Unmarshal` leaves in its struct, whose error is ignored. -/
structure Codec where
  unmarshal : RawMessage → Except String BuiltinPayload
  durationMs : RawMessage → Int
  message : RawMessage → String
  retryable : RawMessage → Bool
  sleptMs : Int → RawMessage
  echo : String → RawMessage
  iterations : Int → RawMessage
  quote : String → String

/-- The goroutine looks at the clock and then at its context.  If it returns from there, it
reads the clock once more.  A `select` with two ready cases takes either of them. -/
structure Look where
  now : Time
  checked : Time
  returned : Time
  takesTimer : Bool
  checked_after : now ≤ checked
  returned_after : checked ≤ returned

section Handlers

variable (err : Time → Option ContextErr)

/-- The `select` of the sleep handler, with the time at which it returns. -/
def awaitTimer (due : Time) : List Look → Option (Except ContextErr Unit × Time)
  | [] => none
  | look :: rest =>
      match err look.checked with
      | none => if due ≤ look.checked then some (.ok (), look.returned) else awaitTimer due rest
      | some e =>
          if due ≤ look.checked ∧ look.takesTimer then some (.ok (), look.returned)
          else some (.error e, look.returned)

/-- The loop of the cpu_burn handler, with the time at which it returns. -/
def burn (deadline : Time) : Int → List Look → Option (Except ContextErr Int × Time)
  | _, [] => none
  | x, look :: rest =>
      if look.now < deadline then
        match err look.checked with
        | some e => some (.error e, look.returned)
        | none => burn deadline (wrap64 (x + 1)) rest
      else some (.ok x, look.returned)

end Handlers

/-- The duration of a handler's arguments, or its default. -/
def orDefault (default ms : Int) : Int := if ms ≤ 0 then default else ms

/-- `time.Duration(ms) * time.Millisecond`. -/
def ofMilliseconds (ms : Int) : Duration := wrap64 (ms * 1000000)

def succeeded (output : RawMessage) (duration : Duration) : ExecutionResult where
  success := true
  output := some output
  duration := duration
  reason := .success

/-- The result of a handler that has waited since `start`. -/
def waited {α : Type} (start : Time) (output : α → RawMessage) :
    Except ContextErr α × Time → ExecutionResult
  | (.ok a, t) => succeeded (output a) (t - start)
  | (.error e, t) => ctxResult (t - start) e

section Execute

variable (codec : Codec) (err : Time → Option ContextErr)

/-- `BuiltinExecutor.Execute`, from the clock reading `start`.  `next` is the one after it: the
timer is set, the loop's deadline is taken or the duration is measured then. -/
def execute (start next : Time) (looks : List Look) (payload : RawMessage) :
    Option ExecutionResult :=
  match codec.unmarshal payload with
  | .error e => some (failure (next - start) ("invalid builtin payload: " ++ e))
  | .ok p =>
      match p.handler with
      | "sleep" =>
          let ms := orDefault 100 (codec.durationMs p.args)
          (awaitTimer err (next + ofMilliseconds ms) looks).map
            (waited start fun _ => codec.sleptMs ms)
      | "echo" => some (succeeded (codec.echo (codec.message p.args)) (next - start))
      | "fail" =>
          let message := codec.message p.args
          some { failure (next - start) (if message = "" then "intentional failure" else message)
            with retryable := codec.retryable p.args }
      | "cpu_burn" =>
          let ms := orDefault 50 (codec.durationMs p.args)
          (burn err (next + ofMilliseconds ms) 0 looks).map (waited start codec.iterations)
      | handler =>
          some (failure (next - start) ("unknown builtin handler " ++ codec.quote handler))

end Execute

/-- Both executors, with the libraries and the network that they use. -/
structure Executor where
  codec : Codec
  lib : Libraries
  send : HTTPRequest → HTTPOutcome

def typeName : JobType → String
  | .unset => ""
  | .builtin => "builtin"
  | .webhook => "webhook"
  | .other name => name

/-- A webhook call returns at `next`.  A result for a type that is not supported has no reason. -/
def Executor.execute (x : Executor) (err : Time → Option ContextErr) (start next : Time)
    (looks : List Look) (jobType : JobType) (payload : RawMessage) : Option ExecutionResult :=
  match jobType with
  | .builtin => BuiltinOutcomes.execute x.codec err start next looks payload
  | .webhook =>
      some (WebhookOutcomes.execute x.lib x.send (err next) payload (next - start))
  | jobType =>
      some { success := false
             error := "unsupported job type " ++ x.codec.quote (typeName jobType)
             retryable := false }

/-- By the given time the context has ended in this way. -/
def Ended (ctx : Context) (cancelAt : Option Time) (t : Time) : ContextErr → Prop
  | .deadlineExceeded => ctx.deadline ≤ t
  | .canceled => ∃ c ∈ cancelAt, c ≤ t ∧ c < ctx.deadline

section Context

variable {ctx : Context} {cancelAt : Option Time} {t : Time}

end Context

section Waiting

variable {err : Time → Option ContextErr}

end Waiting

section Grounds

variable (codec : Codec) (ctx : Context) (cancelAt : Option Time) (payload : RawMessage)
  (start : Time)

variable {codec ctx cancelAt payload start} {next : Time} {looks : List Look}
  {result : ExecutionResult}

end Grounds

section Executor

variable {x : Executor} {ctx : Context} {cancelAt : Option Time} {start next : Time}
  {looks : List Look} {jobType : JobType} {payload : RawMessage} {result : ExecutionResult}

end Executor

section Pipeline

variable (cron : Cron) (cfg : SchedulerConfig) (clock : Time → Prop) {w : World} {job : Job}

end Pipeline

def look (t : Time) : Look where
  now := t
  checked := t
  returned := t
  takesTimer := false
  checked_after := le_rfl
  returned_after := le_rfl

end Chronos.BuiltinOutcomes
