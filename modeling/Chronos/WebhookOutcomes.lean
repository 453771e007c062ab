import Chronos.ClientCancels
import Chronos.Watchdog
import Chronos.WorkerRegistry

namespace Chronos.WebhookOutcomes

open Chronos.ClientCancels (reportResult)
open Chronos.Domain
open Chronos.Library.CallMachine
open Chronos.MemoryStore
open Chronos.Operations (Outcome Task echoJob smallConfig utcOnly)
open Chronos.ResultRecords
open Chronos.SchedulerService
open Chronos.SharedState
open Chronos.WorkerProcess
open Chronos.WorkerRegistry (Authenticator)

structure WebhookPayload where
  url : String
  method : String
  headers : List (String × String)
  body : RawMessage
  deriving DecidableEq, Repr

/-- A request as it is sent, with its headers in the order in which they are set. -/
structure HTTPRequest where
  method : String
  url : String
  headers : List (String × String)
  body : Option RawMessage
  deriving DecidableEq, Repr

/-- An error of `client.Do`, with what `errors.Is` says of it. -/
structure TransportErr where
  text : String
  deadlineExceeded : Bool := false
  canceled : Bool := false
  deriving DecidableEq, Repr

inductive HTTPOutcome
  | response (statusCode : Int) (body : RawMessage)
  | failed (err : TransportErr)
  deriving DecidableEq, Repr

/-- The functions of Go's libraries that `Execute` calls. -/
structure Libraries where
  unmarshal : RawMessage → Except String WebhookPayload
  newRequest : (method url : String) → Except String Unit
  equalFold : String → String → Bool
  marshal : (statusCode : Int) → (body : RawMessage) → RawMessage

def hasScheme (url : String) : Bool :=
  "http://".toList.isPrefixOf url.toList || "https://".toList.isPrefixOf url.toList

section Execute

variable (lib : Libraries)

/-- The part of `Execute` before the call, with the error text where there is none. -/
def buildRequest (payload : RawMessage) : Except String HTTPRequest :=
  match lib.unmarshal payload with
  | .error e => .error ("invalid webhook payload: " ++ e)
  | .ok p =>
      if p.url = "" then .error "webhook url required"
      else if hasScheme p.url = false then .error "webhook url must be http(s)"
      else
        let method := if p.method = "" then "POST" else p.method
        match lib.newRequest method p.url with
        | .error e => .error e
        | .ok _ => .ok {
            method := method
            url := p.url
            headers := [("Content-Type", "application/json"), ("User-Agent", "chronos-worker/1.0")]
              ++ p.headers.filter fun header => !lib.equalFold header.1 "Host"
            body := if p.body = [] then none else some p.body }

def failure (duration : Duration) (error : String) : ExecutionResult where
  success := false
  error := error
  retryable := false
  duration := duration
  reason := .failed

def TransportErr.result (err : TransportErr) (ctxErr : Option ContextErr) (duration : Duration) :
    ExecutionResult :=
  if err.deadlineExceeded ∨ ctxErr = some .deadlineExceeded then
    { success := false, error := "timeout", retryable := true, duration := duration,
      reason := .timeout }
  else if err.canceled ∨ ctxErr = some .canceled then
    { success := false, error := "cancelled", retryable := false, duration := duration,
      reason := .cancelled }
  else
    { success := false, error := err.text, retryable := true, duration := duration,
      reason := .failed }

def responseResult (statusCode : Int) (body : RawMessage) (duration : Duration) :
    ExecutionResult :=
  let out := lib.marshal statusCode (body.take (2 ^ 20))
  if 200 ≤ statusCode ∧ statusCode < 300 then
    { success := true, output := some out, duration := duration, reason := .success }
  else
    { success := false, output := some out, error := "webhook status " ++ toString statusCode,
      retryable := statusCode ≥ 500 ∨ statusCode = 429, duration := duration, reason := .failed }

variable (send : HTTPRequest → HTTPOutcome) (ctxErr : Option ContextErr)

/-- `WebhookExecutor.Execute`.  `ctxErr` is the context's error when the call returns. -/
def execute (payload : RawMessage) (duration : Duration) : ExecutionResult :=
  match buildRequest lib payload with
  | .error e => failure duration e
  | .ok request =>
      match send request with
      | .failed err => err.result ctxErr duration
      | .response statusCode body => responseResult lib statusCode body duration

end Execute

/-- What an attempt comes to. -/
inductive Verdict
  | success
  | retryable
  | permanent
  | deadline
  | cancelled
  deriving DecidableEq, Repr

def Verdict.jobState (attempt maxAttempts : Int) : Verdict → JobState
  | .success => .completed
  | .retryable => if attempt < maxAttempts then .retrying else .failed
  | .permanent => .failed
  | .deadline => if attempt < maxAttempts then .retrying else .timeout
  | .cancelled => .cancelled

def Verdict.executionState : Verdict → ExecutionState
  | .success => .completed
  | .retryable | .permanent => .failed
  | .deadline => .timeout
  | .cancelled => .cancelled

/-- A result that carries the verdict in its flags and its reason. -/
def Verdict.Shows : Verdict → ExecutionResult → Prop
  | .success, result => result.success = true ∧ result.reason = .success
  | .retryable, result =>
      result.success = false ∧ result.reason = .failed ∧ result.retryable = true
  | .permanent, result =>
      result.success = false ∧ result.reason = .failed ∧ result.retryable = false
  | .deadline, result => result.success = false ∧ result.reason = .timeout
  | .cancelled, result => result.success = false ∧ result.reason = .cancelled

section Pipeline

variable {cron : Cron} {cfg : SchedulerConfig} {clock : Time → Prop} {w w' : World} {job : Job}
  {ds : List Draw}

end Pipeline

end Chronos.WebhookOutcomes
