/-!
Computations that update a state, write a log, and end in a value or a failure.

The log has messages with a level, in the order they were written. The state and the log outlive a
failure: what was done before it stays done. Everything that reports or can fail is written in this
form, with the state that it needs.
-/

namespace EventFlow

namespace Log

inductive Level where
  | debug
  | info
  | warning
  | error
deriving DecidableEq, Repr

namespace Level

def name : Level → String
  | .debug => "DEBUG"
  | .info => "INFO"
  | .warning => "WARNING"
  | .error => "ERROR"

def rank : Level → Nat
  | .debug => 0
  | .info => 1
  | .warning => 2
  | .error => 3

end Level

structure Entry where
  level : Level
  message : String
deriving DecidableEq, Repr

def above (least : Level) (log : List Entry) : List Entry :=
  log.filter fun e => least.rank ≤ e.level.rank

end Log

structure Ended (σ ε α : Type) where
  state : σ
  log : List Log.Entry
  outcome : Except ε α

def Run (σ ε α : Type) := σ → Ended σ ε α

/-- A computation that only reports. -/
abbrev Traced (ε α : Type) := Run Unit ε α

namespace Run

variable {σ τ ε ε' α β : Type}

protected def pure (a : α) : Run σ ε α :=
  fun s => ⟨s, [], .ok a⟩

protected def bind (x : Run σ ε α) (f : α → Run σ ε β) : Run σ ε β :=
  fun s =>
    let first := x s
    match first.outcome with
    | .error e => ⟨first.state, first.log, .error e⟩
    | .ok a =>
      let second := f a first.state
      ⟨second.state, first.log ++ second.log, second.outcome⟩

instance : Monad (Run σ ε) where
  pure := Run.pure
  bind := Run.bind

def fail (e : ε) : Run σ ε α :=
  fun s => ⟨s, [], .error e⟩

def ofExcept (x : Except ε α) : Run σ ε α :=
  fun s => ⟨s, [], x⟩

def note (level : Log.Level) (message : String) : Run σ ε Unit :=
  fun s => ⟨s, [⟨level, message⟩], .ok ()⟩

def debug (message : String) : Run σ ε Unit := note .debug message

def info (message : String) : Run σ ε Unit := note .info message

def warn (message : String) : Run σ ε Unit := note .warning message

def error (message : String) : Run σ ε Unit := note .error message

def get : Run σ ε σ :=
  fun s => ⟨s, [], .ok s⟩

def modify (f : σ → σ) : Run σ ε Unit :=
  fun s => ⟨f s, [], .ok ()⟩

def each (xs : List α) (f : α → Run σ ε β) : Run σ ε (List β) :=
  match xs with
  | [] => pure []
  | x :: rest => do
    let y ← f x
    let ys ← each rest f
    return y :: ys

def lift (x : Traced ε α) : Run σ ε α :=
  fun s => let ended := x (); ⟨s, ended.log, ended.outcome⟩

/-- Turns a failure into an ordinary result. -/
def attempt (x : Run σ ε α) : Run σ ε' (Except ε α) :=
  fun s => let ended := x s; ⟨ended.state, ended.log, .ok ended.outcome⟩

def mapError (f : ε → ε') (x : Run σ ε α) : Run σ ε' α :=
  fun s => let ended := x s; ⟨ended.state, ended.log, ended.outcome.mapError f⟩

def zoom (part : τ → σ) (put : σ → τ → τ) (x : Run σ ε α) : Run τ ε α :=
  fun t => let ended := x (part t); ⟨put ended.state t, ended.log, ended.outcome⟩

end Run

end EventFlow
